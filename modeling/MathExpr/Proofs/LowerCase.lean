import MathExpr.Text.Case

/-!
# Lower case is settled

Keys are names in lower case, and a key is put in lower case again wherever it is
used as a name. `Text.lower_lower` says that this changes nothing: a text in lower
case stays as it is.

The proof follows the definition of `lower`. A character is *settled* if it is its
own lower case form; the case mapping only gives settled characters
(`isSettled_of_mem_lowerChar`), because no run of the mapping leads into a run
(`lowerRuns_avoid`).
-/

namespace MathExpr.Text

/-! ### Runs of the case mapping -/

/-- The code points that a run leads to lie between these two. -/
def CaseRun.low (r : CaseRun) : Nat := (Int.ofNat r.first + r.shift).toNat

def CaseRun.high (r : CaseRun) : Nat := (Int.ofNat r.last + r.shift).toNat

/-- Whether no code point that the run `r` leads to lies in the run `q`: the two are
apart, or interleave in steps of two. -/
def CaseRun.avoids (r q : CaseRun) : Bool :=
  r.high < q.first || q.last < r.low ||
    (q.step == 2 && (r.step == 2 || r.first == r.last) && (r.low + q.first) % 2 == 1)

/-- Whether a run leads to characters, of which none has a lower case form by a rule
of its own. -/
def CaseRun.isPlain (r : CaseRun) : Bool :=
  0 ≤ Int.ofNat r.first + r.shift && (r.high < 0xd800 || 0xdfff < r.low) && r.high < 0x110000 &&
    (r.high < 0x130 || 0x130 < r.low) && (r.high < 0x3a3 || 0x3a3 < r.low)

theorem lowerRuns_avoid :
    (lowerRuns.all fun r => r.isPlain && lowerRuns.all r.avoids) = true := by
  decide +kernel

/-- The steps of all runs are one or two. -/
theorem lowerRuns_step : (lowerRuns.all fun r => r.step == 1 || r.step == 2) = true := by
  decide +kernel

/-- A code point in a run is mapped between the ends of what the run leads to, at the
same distance from the start. -/
theorem CaseRun.map_eq (runs : List CaseRun) (c : Nat) :
    CaseRun.map runs c = c ∨
      ∃ r ∈ runs, r.first ≤ c ∧ c ≤ r.last ∧ (c - r.first) % r.step = 0 ∧
        CaseRun.map runs c = ((c : Int) + r.shift).toNat := by
  unfold CaseRun.map
  split
  · rename_i r hr
    have hc := List.find?_some hr
    simp only [Bool.and_eq_true, decide_eq_true_eq, beq_iff_eq] at hc
    exact .inr ⟨r, List.mem_of_find?_eq_some hr, hc.1.1, hc.1.2, hc.2, rfl⟩
  · exact .inl rfl

theorem CaseRun.map_eq_self {runs : List CaseRun} {c : Nat}
    (h : ∀ r ∈ runs, c < r.first ∨ r.last < c ∨ (c - r.first) % r.step ≠ 0) :
    CaseRun.map runs c = c := by
  rcases CaseRun.map_eq runs c with heq | ⟨r, hr, hfirst, hlast, hstep, -⟩
  · exact heq
  · have := h r hr
    omega

/-- No run leads into a run, so the mapping changes nothing the second time. -/
theorem map_map_lowerRuns (c : Nat) :
    CaseRun.map lowerRuns (CaseRun.map lowerRuns c) = CaseRun.map lowerRuns c := by
  rcases CaseRun.map_eq lowerRuns c with heq | ⟨r, hr, hfirst, hlast, hstep, heq⟩
  · rw [heq, heq]
  · rw [heq]
    have hall := List.all_eq_true.1 lowerRuns_avoid r hr
    rw [Bool.and_eq_true] at hall
    obtain ⟨hplain, havoid⟩ := hall
    have hr1 := List.all_eq_true.1 lowerRuns_step r hr
    refine CaseRun.map_eq_self fun q hq => ?_
    have hq1 := List.all_eq_true.1 lowerRuns_step q hq
    have hrq := List.all_eq_true.1 havoid q hq
    simp only [CaseRun.avoids, CaseRun.isPlain, Bool.or_eq_true, Bool.and_eq_true,
      decide_eq_true_eq, beq_iff_eq] at hrq hplain hr1 hq1
    simp only [CaseRun.low, CaseRun.high, Int.ofNat_eq_natCast] at hrq hplain
    rcases hq1 with hq1 | hq1
    · rw [hq1] at hrq ⊢
      omega
    · rw [hq1] at hrq ⊢
      rcases hr1 with hr1 | hr1
      · rw [hr1] at hrq hstep
        omega
      · rw [hr1] at hrq hstep
        omega

/-! ### Settled characters -/

/-- A character that lower case does not change, wherever it stands. -/
def IsSettled (c : Char) : Prop := c.toNat ≠ 0x3a3 ∧ lowerChar c = [c]

instance (c : Char) : Decidable (IsSettled c) :=
  inferInstanceAs (Decidable (_ ∧ _))

theorem toLower_ascii {c : Char} (h : c.toNat < 128) :
    c.toLower.toNat < 128 ∧ c.toLower.toLower = c.toLower := by
  have hall : ∀ n : Fin 128, (Char.ofNat n).toLower.toNat < 128 ∧
      (Char.ofNat n).toLower.toLower = (Char.ofNat n).toLower := by decide
  simpa only [Char.ofNat_toNat] using hall ⟨c.toNat, h⟩

theorem toLower_of_isSettled {c : Char} (h : IsSettled c) (hc : c.toNat < 128) :
    c.toLower = c := by
  have := h.2
  rw [lowerChar, if_pos hc] at this
  exact List.singleton_inj.1 this

theorem isSettled_toLower {c : Char} (h : c.toNat < 128) : IsSettled c.toLower := by
  obtain ⟨hlt, heq⟩ := toLower_ascii h
  refine ⟨by omega, ?_⟩
  rw [lowerChar, if_pos hlt, heq]

/-- The mapping leads to characters, and to none that is mapped by a rule of its own. -/
theorem map_lowerRuns_plain {c : Char} (h : c.toNat ≠ 0x3a3) (hspecial : c.toNat ≠ 0x130) :
    (CaseRun.map lowerRuns c.toNat).isValidChar ∧ CaseRun.map lowerRuns c.toNat ≠ 0x3a3 ∧
      CaseRun.map lowerRuns c.toNat ≠ 0x130 := by
  rcases CaseRun.map_eq lowerRuns c.toNat with heq | ⟨r, hr, hfirst, hlast, -, heq⟩
  · rw [heq]
    exact ⟨c.valid, h, hspecial⟩
  · have hall := List.all_eq_true.1 lowerRuns_avoid r hr
    simp only [CaseRun.isPlain, Bool.and_eq_true, Bool.or_eq_true, decide_eq_true_eq] at hall
    simp only [CaseRun.low, CaseRun.high, Int.ofNat_eq_natCast] at hall
    rw [heq]
    unfold Nat.isValidChar
    omega

theorem toNat_ofNat {n : Nat} (h : n.isValidChar) : (Char.ofNat n).toNat = n := by
  rw [Char.ofNat, dif_pos h]
  rfl

/-- On ASCII the mapping moves the capital letters. -/
theorem toLower_of_map_eq {n : Nat} (h : n < 128) (hmap : CaseRun.map lowerRuns n = n) :
    (Char.ofNat n).toLower = Char.ofNat n := by
  have hall : ∀ m : Fin 128, CaseRun.map lowerRuns m = m →
      (Char.ofNat m).toLower = Char.ofNat m := by decide +kernel
  exact hall ⟨n, h⟩ hmap

/-- A code point that the mapping leads to is settled. -/
theorem isSettled_map {c : Char} (h : c.toNat ≠ 0x3a3) (hspecial : c.toNat ≠ 0x130) :
    IsSettled (Char.ofNat (CaseRun.map lowerRuns c.toNat)) := by
  obtain ⟨hvalid, hsigma, hdotted⟩ := map_lowerRuns_plain h hspecial
  have hmap := map_map_lowerRuns c.toNat
  generalize CaseRun.map lowerRuns c.toNat = n at *
  have hn := toNat_ofNat hvalid
  refine ⟨by rw [hn]; exact hsigma, ?_⟩
  unfold lowerChar
  rw [hn]
  split
  · rw [toLower_of_map_eq ‹_› hmap]
  · have hnone : lowerSpecial.lookup n = none := by
      rw [lowerSpecial, List.lookup_cons, beq_eq_false_iff_ne.2 hdotted]
      rfl
    rw [hnone, hmap]

theorem isSettled_of_mem_lowerChar {c d : Char} (h : c.toNat ≠ 0x3a3) (hd : d ∈ lowerChar c) :
    IsSettled d := by
  unfold lowerChar at hd
  split at hd
  · rw [List.mem_singleton.1 hd]
    exact isSettled_toLower ‹_›
  · by_cases hspecial : c.toNat = 0x130
    · rw [hspecial] at hd
      have hletter : IsSettled (Char.ofNat 0x69) := by decide +kernel
      have hdot : IsSettled (Char.ofNat 0x307) := by decide +kernel
      rcases List.mem_cons.1 hd with rfl | hd
      · exact hletter
      · rw [List.mem_singleton.1 hd]
        exact hdot
    · have hnone : lowerSpecial.lookup c.toNat = none := by
        rw [lowerSpecial, List.lookup_cons, beq_eq_false_iff_ne.2 hspecial]
        rfl
      rw [hnone] at hd
      rw [List.mem_singleton.1 hd]
      exact isSettled_map h hspecial

theorem isSettled_of_mem_lowerChars {before cs : List Char} {d : Char}
    (hd : d ∈ lowerChars before cs) : IsSettled d := by
  induction cs generalizing before with
  | nil => cases hd
  | cons c rest ih =>
      unfold lowerChars at hd
      rcases List.mem_append.1 hd with hd | hd
      · split at hd
        · split at hd
          · rw [List.mem_singleton.1 hd]
            decide +kernel
          · rw [List.mem_singleton.1 hd]
            decide +kernel
        · exact isSettled_of_mem_lowerChar ‹_› hd
      · exact ih hd

/-- A text of settled characters stays as it is. -/
theorem lowerChars_of_isSettled {before cs : List Char} (h : ∀ c ∈ cs, IsSettled c) :
    lowerChars before cs = cs := by
  induction cs generalizing before with
  | nil => rfl
  | cons c rest ih =>
      obtain ⟨hsigma, hc⟩ := h c List.mem_cons_self
      rw [lowerChars, if_neg hsigma, hc, ih fun d hd => h d (List.mem_cons_of_mem c hd)]
      rfl

theorem map_toLower_of_isSettled {cs : List Char} (h : ∀ c ∈ cs, IsSettled c)
    (hascii : ∀ c ∈ cs, c.toNat < 128) : cs.map Char.toLower = cs := by
  induction cs with
  | nil => rfl
  | cons c rest ih =>
      rw [List.map_cons, toLower_of_isSettled (h c List.mem_cons_self) (hascii c List.mem_cons_self),
        ih (fun d hd => h d (List.mem_cons_of_mem c hd))
          fun d hd => hascii d (List.mem_cons_of_mem c hd)]

theorem lower_of_isSettled {s : String} (h : ∀ c ∈ s.toList, IsSettled c) : lower s = s := by
  unfold lower
  split
  · rename_i hascii
    simp only [List.all_eq_true, decide_eq_true_eq] at hascii
    rw [map_toLower_of_isSettled h hascii, String.ofList_toList]
  · rw [lowerChars_of_isSettled h, String.ofList_toList]

/-- All characters of a text in lower case are settled. -/
theorem isSettled_of_mem_lower {s : String} {c : Char} (h : c ∈ (lower s).toList) :
    IsSettled c := by
  unfold lower at h
  split at h
  · rename_i hascii
    simp only [List.all_eq_true, decide_eq_true_eq] at hascii
    rw [String.toList_ofList] at h
    obtain ⟨d, hd, rfl⟩ := List.mem_map.1 h
    exact isSettled_toLower (hascii d hd)
  · rw [String.toList_ofList] at h
    exact isSettled_of_mem_lowerChars h

/-- Lower case is reached in one step. -/
@[simp]
theorem lower_lower (s : String) : lower (lower s) = lower s := by
  exact lower_of_isSettled fun _ => isSettled_of_mem_lower

/-! ### Signs -/

/-- All runs lead to small letters and beyond. -/
theorem lowerRuns_letters : (lowerRuns.all fun r => 0x61 ≤ r.low && 0 ≤ Int.ofNat r.first + r.shift) = true := by
  decide +kernel

theorem toLower_of_lt {c : Char} (h : c.toLower.toNat < 0x61) : c.toLower = c := by
  by_cases hc : c.toNat < 128
  · have hall : ∀ n : Fin 128, (Char.ofNat n).toLower.toNat < 0x61 → (Char.ofNat n).toLower = Char.ofNat n := by
      decide
    simpa only [Char.ofNat_toNat] using hall ⟨c.toNat, hc⟩ (by rwa [Char.ofNat_toNat])
  · unfold Char.toLower
    rw [dif_neg]
    intro hletter
    have hle : c.toNat ≤ 90 := hletter.2
    omega

/-- Only a character before the small letters becomes one, and that is itself. -/
theorem lowerChar_of_lt {c : Char} (hsigma : c.toNat ≠ 0x3a3) (h : ∀ d ∈ lowerChar c, d.toNat < 0x61) :
    lowerChar c = [c] := by
  unfold lowerChar at h ⊢
  split
  · rename_i hascii
    rw [if_pos hascii] at h
    rw [toLower_of_lt (h _ List.mem_cons_self)]
  · rename_i hascii
    rw [if_neg hascii] at h
    by_cases hspecial : c.toNat = 0x130
    · rw [hspecial] at h
      exact absurd (h (Char.ofNat 0x69) List.mem_cons_self) (by decide)
    · have hnone : lowerSpecial.lookup c.toNat = none := by
        rw [lowerSpecial, List.lookup_cons, beq_eq_false_iff_ne.2 hspecial]
        rfl
      rw [hnone] at h ⊢
      have hlt := h _ List.mem_cons_self
      rw [toNat_ofNat (map_lowerRuns_plain hsigma hspecial).1] at hlt
      rcases CaseRun.map_eq lowerRuns c.toNat with heq | ⟨r, hr, hfirst, -, -, heq⟩
      · rw [heq, Char.ofNat_toNat]
      · have hrun := List.all_eq_true.1 lowerRuns_letters r hr
        simp only [Bool.and_eq_true, decide_eq_true_eq] at hrun
        simp only [CaseRun.low, Int.ofNat_eq_natCast] at hrun
        omega

theorem eq_of_lowerChars_eq {before cs ds : List Char} (hds : ∀ d ∈ ds, d.toNat < 0x61)
    (h : lowerChars before cs = ds) : cs = ds := by
  induction cs generalizing before ds with
  | nil => exact h
  | cons c rest ih =>
      rw [lowerChars] at h
      subst h
      obtain ⟨hform, hrest⟩ := List.forall_mem_append.1 hds
      rw [← ih hrest rfl]
      split at hform
      · split at hform <;> exact absurd (hform _ List.mem_cons_self) (by decide)
      · rename_i hsigma
        rw [if_neg hsigma, lowerChar_of_lt hsigma hform]
        rfl

/-- A text without small letters is the lower case of no other text. -/
theorem eq_of_lower_eq {s s' : String} (hs' : ∀ d ∈ s'.toList, d.toNat < 0x61) (h : lower s = s') : s = s' := by
  subst h
  unfold lower at hs' ⊢
  split
  · rename_i hascii
    rw [if_pos hascii, String.toList_ofList, List.forall_mem_map] at hs'
    rw [List.map_congr_left fun c hc => toLower_of_lt (hs' c hc), List.map_id', String.ofList_toList]
  · rename_i hascii
    rw [if_neg hascii, String.toList_ofList] at hs'
    rw [← eq_of_lowerChars_eq hs' rfl, String.ofList_toList]

end MathExpr.Text
