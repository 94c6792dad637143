import MathExpr.Proofs.Outcome
import MathExpr.Proofs.Trees
import MathExpr.Scope
import MathExpr.Text.Template
import MathExpr.Tree.OfTokens

/-!
# Leaves of trees that are read

The leaves of a tree that is read from tokens are what the tokens stand for
(`Tree.leaves_of_ofTokens`), and what stands at its nodes comes from them too
(`Tree.madeOf_of_ofTokens`). A text among the tokens of some source text is shorter
than this (`Token.length_lt_of_mem_ofSource`). So the texts in a tree are shorter than the
source text of the tree (`Tree.textBelow_of_ofSourceIn`).
-/

namespace MathExpr

namespace Tree

/-- All leaves of a tree have a property. -/
def Leaves (P : Value → Prop) (t : Tree) : Prop := ∀ v, leaf v ∈ t.subtrees → P v

variable {P : Value → Prop}

theorem leaves_leaf {v : Value} : (leaf v).Leaves P ↔ P v := by
  constructor
  · exact fun h => h v (List.mem_singleton.2 rfl)
  · intro h w hw
    cases List.mem_singleton.1 hw
    exact h

theorem leaves_node {h : Head} {args : List Tree} :
    (node h args).Leaves P ↔ ∀ t ∈ args, t.Leaves P := by
  constructor
  · intro hall t ht v hv
    exact hall v (List.mem_cons_of_mem _ (mem_subtreesOf.2 ⟨t, ht, hv⟩))
  · intro hall v hv
    rcases List.mem_cons.1 hv with hv | hv
    · cases hv
    · obtain ⟨t, ht, hv⟩ := mem_subtreesOf.1 hv
      exact hall t ht v hv

/-- All leaves of a tree have a property, and so do all that stands at its nodes. -/
structure MadeOf (P : Value → Prop) (Q : Head → Prop) (t : Tree) : Prop where
  leaves : t.Leaves P
  heads : ∀ h args, node h args ∈ t.subtrees → Q h

variable {Q : Head → Prop}

theorem madeOf_leaf {v : Value} : (leaf v).MadeOf P Q ↔ P v := by
  refine ⟨fun h => leaves_leaf.1 h.leaves, fun h => ⟨leaves_leaf.2 h, fun head args hmem => ?_⟩⟩
  cases List.mem_singleton.1 hmem

theorem madeOf_node {h : Head} {args : List Tree} :
    (node h args).MadeOf P Q ↔ Q h ∧ ∀ t ∈ args, t.MadeOf P Q := by
  constructor
  · intro hall
    refine ⟨hall.heads h args List.mem_cons_self, fun t ht => ⟨leaves_node.1 hall.leaves t ht, ?_⟩⟩
    exact fun head more hmem => hall.heads head more (List.mem_cons_of_mem _ (mem_subtreesOf.2 ⟨t, ht, hmem⟩))
  · rintro ⟨hh, hall⟩
    refine ⟨leaves_node.2 fun t ht => (hall t ht).leaves, fun head more hmem => ?_⟩
    rcases List.mem_cons.1 hmem with hmem | hmem
    · cases hmem
      exact hh
    · obtain ⟨t, ht, hmem⟩ := mem_subtreesOf.1 hmem
      exact (hall t ht).heads head more hmem

end Tree

/-! ### Trees from tokens -/

/-- The value that a token stands for, if it stands for one, has a property. -/
def Token.Stands (P : Value → Prop) : Token → Prop
  | number n => P (.number n)
  | text s => P (.plainText s)
  | boolean b => P (.boolean b)
  | name s hints => P (.name s hints)
  | op _ | function _ | mark _ => True

/-- What an operator or a function will be at a node has a property. -/
def Token.Heads (Q : Head → Prop) : Token → Prop
  | op o => Q (.op o)
  | function s => Q (.call (Operator.canonicalFunction s (Text.lower s)))
  | _ => True

/-- A property of what stands at nodes that comes without a token of its own. -/
structure Head.HoldsOfImplied (Q : Head → Prop) : Prop where
  list : Q .list
  index : Q (.call "listval")
  times : Q (.op .times)

/-- What an operator or a call that waits will be at a node has a property. -/
def Pending.Heads (Q : Head → Prop) : Pending → Prop
  | op o => Q (.op o)
  | call name _ _ => Q (.call (Operator.canonicalFunction name (Text.lower name)))
  | group | square .. => True

namespace Arrangement

/-- The finished trees have properties, and what waits will not change this. -/
structure MadeOf (P : Value → Prop) (Q : Head → Prop) (a : Arrangement) : Prop where
  output : ∀ t ∈ a.output, t.MadeOf P Q
  stack : ∀ p ∈ a.stack, p.Heads Q

variable {P : Value → Prop} {Q : Head → Prop} {output output' : List Tree} {a a' : Arrangement}

theorem madeOf_combine {head : Head} {label : String} {n : Nat} (hhead : Q head)
    (h : ∀ t ∈ output, t.MadeOf P Q) (hcombine : combine head label n output = .ok output') :
    ∀ t ∈ output', t.MadeOf P Q := by
  unfold combine at hcombine
  split at hcombine
  · cases hcombine
  · cases hcombine
    intro t ht
    rcases List.mem_cons.1 ht with rfl | ht
    · exact Tree.madeOf_node.2 ⟨hhead, fun u hu => h u (List.mem_of_mem_take (List.mem_reverse.1 hu))⟩
    · exact h t (List.mem_of_mem_drop ht)

theorem madeOf_applyWhile {isReady : Operator → Bool} {stack : List Pending}
    (h : MadeOf P Q ⟨stack, output⟩) (happly : applyWhile isReady stack output = .ok a) : a.MadeOf P Q := by
  fun_induction applyWhile isReady stack output with
  | case1 output o stack hready ih =>
      obtain ⟨output', hoperator, hrest⟩ := exists_of_bind_eq_ok happly
      obtain ⟨ho, hstack⟩ := List.forall_mem_cons.1 h.stack
      exact ih output' ⟨madeOf_combine ho h.output hoperator, hstack⟩ hrest
  | case2 | case3 =>
      cases happly
      exact h

theorem madeOf_applyAll (h : a.MadeOf P Q) (happly : a.applyAll = .ok a') : a'.MadeOf P Q :=
  madeOf_applyWhile h happly

theorem madeOf_operator {o : Operator} (ho : Q (.op o)) (h : a.MadeOf P Q) (hstep : a.operator o = .ok a') :
    a'.MadeOf P Q := by
  by_cases hplace : o.place = .before
  · rw [operator, if_pos hplace] at hstep
    cases hstep
    exact ⟨h.output, List.forall_mem_cons.2 ⟨ho, h.stack⟩⟩
  · rw [operator, if_neg hplace] at hstep
    obtain ⟨b, hb, hpush⟩ := exists_of_bind_eq_ok hstep
    cases hpush
    have hb := madeOf_applyWhile h hb
    exact ⟨hb.output, List.forall_mem_cons.2 ⟨ho, hb.stack⟩⟩

theorem madeOf_comma (h : a.MadeOf P Q) (hstep : a.comma = .ok a') : a'.MadeOf P Q := by
  unfold comma at hstep
  obtain ⟨b, hb, hcount⟩ := exists_of_bind_eq_ok hstep
  have hb := madeOf_applyAll h hb
  have hstack := hb.stack
  split at hcount
  · rename_i hopen
    cases hcount
    rw [hopen] at hstack
    obtain ⟨hpending, hstack⟩ := List.forall_mem_cons.1 hstack
    exact ⟨hb.output, List.forall_mem_cons.2 ⟨hpending, hstack⟩⟩
  · rename_i hopen
    cases hcount
    rw [hopen] at hstack
    obtain ⟨hpending, hstack⟩ := List.forall_mem_cons.1 hstack
    exact ⟨hb.output, List.forall_mem_cons.2 ⟨hpending, hstack⟩⟩
  · cases hcount

theorem madeOf_closeRound (h : a.MadeOf P Q) (hstep : a.closeRound = .ok a') : a'.MadeOf P Q := by
  unfold closeRound at hstep
  obtain ⟨b, hb, hclose⟩ := exists_of_bind_eq_ok hstep
  have hb := madeOf_applyAll h (eq_ok_of_mapError hb)
  have hstack := hb.stack
  split at hclose
  · rename_i hopen
    cases hclose
    rw [hopen] at hstack
    exact ⟨hb.output, (List.forall_mem_cons.1 hstack).2⟩
  · rename_i hopen
    obtain ⟨output, houtput, hdone⟩ := exists_of_bind_eq_ok hclose
    cases hdone
    rw [hopen] at hstack
    obtain ⟨hname, hstack⟩ := List.forall_mem_cons.1 hstack
    exact ⟨madeOf_combine hname hb.output (eq_ok_of_mapError houtput), hstack⟩
  · cases hclose
  · cases hclose

theorem madeOf_closeSquare (hQ : Head.HoldsOfImplied Q) (h : a.MadeOf P Q) (hstep : a.closeSquare = .ok a') :
    a'.MadeOf P Q := by
  unfold closeSquare at hstep
  obtain ⟨b, hb, hclose⟩ := exists_of_bind_eq_ok hstep
  have hb := madeOf_applyAll h (eq_ok_of_mapError hb)
  have hstack := hb.stack
  split at hclose
  · rename_i hopen
    rw [hopen] at hstack
    have hstack := (List.forall_mem_cons.1 hstack).2
    dsimp only at hclose
    split at hclose
    · split at hclose
      · obtain ⟨output, houtput, hdone⟩ := exists_of_bind_eq_ok hclose
        cases hdone
        exact ⟨madeOf_combine hQ.index hb.output (eq_ok_of_mapError houtput), hstack⟩
      · cases hclose
    · obtain ⟨output, houtput, hdone⟩ := exists_of_bind_eq_ok hclose
      cases hdone
      exact ⟨madeOf_combine hQ.list hb.output (eq_ok_of_mapError houtput), hstack⟩
  · cases hclose
  · cases hclose

/-- One token. -/
theorem madeOf_step (hQ : Head.HoldsOfImplied Q) {previous : Option Token} {t : Token} (hstands : t.Stands P)
    (hheads : t.Heads Q) (h : a.MadeOf P Q) (hstep : a.step previous t = .ok a') : a'.MadeOf P Q := by
  cases t with
  | number | text | boolean | name =>
      cases hstep
      exact ⟨List.forall_mem_cons.2 ⟨Tree.madeOf_leaf.2 hstands, h.output⟩, h.stack⟩
  | op o => exact madeOf_operator hheads h (eq_ok_of_mapError hstep)
  | function name =>
      cases hstep
      exact ⟨h.output, List.forall_mem_cons.2 ⟨hheads, h.stack⟩⟩
  | mark m =>
      cases m with
      | openRound =>
          rcases previous with _ | (_ | _ | _ | _ | _ | _ | _)
          case some.function =>
            cases hstep
            exact h
          all_goals
            cases hstep
            exact ⟨h.output, List.forall_mem_cons.2 ⟨trivial, h.stack⟩⟩
      | closeRound => exact madeOf_closeRound h hstep
      | openSquare =>
          cases hstep
          exact ⟨h.output, List.forall_mem_cons.2 ⟨trivial, h.stack⟩⟩
      | closeSquare => exact madeOf_closeSquare hQ h hstep
      | comma => exact madeOf_comma h (eq_ok_of_mapError hstep)

/-- A list of tokens. -/
theorem madeOf_run (hQ : Head.HoldsOfImplied Q) {previous : Option Token} {ts : List Token}
    (hts : ∀ t ∈ ts, t.Stands P ∧ t.Heads Q) (h : a.MadeOf P Q) (hrun : a.run previous ts = .ok a') :
    a'.MadeOf P Q := by
  induction ts generalizing previous a with
  | nil =>
      cases hrun
      exact h
  | cons t ts ih =>
      obtain ⟨b, hb, hrest⟩ := exists_of_bind_eq_ok hrun
      obtain ⟨⟨hstands, hheads⟩, hts⟩ := List.forall_mem_cons.1 hts
      exact ih hts (madeOf_step hQ hstands hheads h hb) hrest

theorem madeOf_finish {root : Tree} (h : a.MadeOf P Q) (hfinish : a.finish = .ok (some root)) :
    root.MadeOf P Q := by
  unfold finish at hfinish
  obtain ⟨b, hb, hroot⟩ := exists_of_bind_eq_ok hfinish
  have hb := (madeOf_applyAll h hb).output
  split at hroot
  · cases hroot
  · cases hroot
  · split at hroot
    · cases hroot
    · rename_i hone
      cases hroot
      exact hb root (by rw [hone]; exact List.mem_cons_self)
    · cases hroot

end Arrangement

namespace Tree

variable {P : Value → Prop} {Q : Head → Prop} {isVariable : String → Bool} {ts : List Token} {t : Tree}

/-- A tree is made of what its tokens stand for, and of the names of functions that are read as products. -/
theorem madeOf_of_ofTokens (hQ : Head.HoldsOfImplied Q) (hts : ∀ u ∈ ts, u.Stands P ∧ u.Heads Q)
    (hnames : ∀ name, .function name ∈ ts → isVariable (Text.lower name) = true → P (.name name []))
    (h : ofTokens isVariable ts = .ok (some t)) : t.MadeOf P Q := by
  obtain ⟨a, ha, hfinish⟩ := exists_of_bind_eq_ok h
  have hempty : Arrangement.empty.MadeOf P Q := ⟨List.forall_mem_nil _, List.forall_mem_nil _⟩
  refine Arrangement.madeOf_finish (Arrangement.madeOf_run hQ ?_ hempty ha) (eq_ok_of_mapError hfinish)
  intro u hu
  obtain ⟨v, hv, hu⟩ := List.mem_flatMap.1 hu
  cases v with
  | function name =>
      dsimp only at hu
      split at hu
      · rename_i hname
        rcases List.mem_cons.1 hu with rfl | hu
        · exact ⟨hnames name hv hname, trivial⟩
        · cases List.mem_singleton.1 hu
          exact ⟨trivial, hQ.times⟩
      · cases List.mem_singleton.1 hu
        exact hts _ hv
  | _ =>
      cases List.mem_singleton.1 hu
      exact hts _ hv

/-- The leaves of a tree are what its tokens stand for, and the names of functions that are read as
products. -/
theorem leaves_of_ofTokens (hts : ∀ u ∈ ts, u.Stands P)
    (hnames : ∀ name, .function name ∈ ts → isVariable (Text.lower name) = true → P (.name name []))
    (h : ofTokens isVariable ts = .ok (some t)) : t.Leaves P := by
  have hheads (u : Token) : u.Heads fun _ => True := by cases u <;> trivial
  exact (madeOf_of_ofTokens ⟨trivial, trivial, trivial⟩ (fun u hu => ⟨hts u hu, hheads u⟩) hnames h).leaves

end Tree

/-! ### Texts -/

/-- A text is shorter than a number of characters. -/
def Value.TextBelow (n : Nat) : Value → Prop
  | .text s _ _ => s.length < n
  | _ => True

namespace Lexeme

theorem length_unescapeChars (cs : List Char) : (unescapeChars cs).length ≤ cs.length := by
  fun_induction unescapeChars cs with
  | case1 rest ih | case2 c rest _ _ ih | case3 c rest _ _ ih | case4 c rest _ ih =>
      simp only [List.length_cons]
      omega
  | case5 => exact Nat.le_refl 0

theorem length_text? {cs : List Char} {s : String} {n : Nat} (h : text? cs = some (s, n)) :
    s.length < cs.length := by
  cases cs with
  | nil => cases h
  | cons c rest =>
      by_cases hc : c = '\x22' ∨ c = '\x27'
      · rw [text?, if_pos hc] at h
        obtain ⟨m, -, hs⟩ := Option.map_eq_some_iff.1 h
        cases hs
        have hle := length_unescapeChars (rest.take m)
        rw [List.length_take] at hle
        rw [String.length_ofList, List.length_cons]
        omega
      · rw [text?, if_neg hc] at h
        cases h

/-- A text that is recognised is shorter than what it is read from. -/
theorem length_lt_of_recognise {cs : List Char} {s : String} {n : Nat}
    (h : recognise cs = some (some (.text s), n)) : s.length < cs.length := by
  unfold recognise at h
  repeat' split at h
  all_goals cases h
  exact length_text? ‹_›

/-- The lexemes of a text are recognised at the starts of what is left of it. -/
theorem exists_of_mem_scan {cs : List Char} {ls : List Lexeme} {l : Lexeme} (h : scan cs = .ok ls)
    (hl : l ∈ ls) : ∃ rest n, rest.length ≤ cs.length ∧ recognise rest = some (some l, n) := by
  fun_induction scan cs generalizing ls with
  | case1 =>
      cases h
      cases hl
  | case2 c rest _ ih =>
      obtain ⟨left, n, hlength, hleft⟩ := ih h hl
      exact ⟨left, n, Nat.le_succ_of_le hlength, hleft⟩
  | case3 => cases h
  | case4 c rest _ lexeme n hrecognise ih =>
      obtain ⟨more, hmore, hcons⟩ := exists_of_bind_eq_ok h
      cases hcons
      rcases List.mem_append.1 hl with hl | hl
      · cases Option.mem_toList.1 hl
        exact ⟨c :: rest, n, Nat.le_refl _, hrecognise⟩
      · obtain ⟨left, n, hlength, hleft⟩ := ih hmore hl
        rw [List.length_drop] at hlength
        refine ⟨left, n, ?_, hleft⟩
        rw [List.length_cons]
        omega

/-- A number that is recognised is written with digits. -/
theorem eq_ofDigits_of_recognise {cs : List Char} {x : Float} {n : Nat}
    (h : recognise cs = some (some (.number x), n)) : ∃ whole fraction, x = Real.ofDigits whole fraction 0 := by
  unfold recognise at h
  repeat' split at h
  all_goals cases h
  rename_i hnumber
  unfold number? at hnumber
  split at hnumber <;> cases hnumber
  · exact ⟨_, _, rfl⟩
  · exact ⟨_, _, rfl⟩

end Lexeme

namespace Token

theorem mem_withProduct {previous : Option Token} {t u : Token} (h : u ∈ withProduct previous t) :
    u = op .times ∨ u = t := by
  unfold withProduct at h
  split at h
  · exact (List.mem_cons.1 h).imp_right List.mem_singleton.1
  · exact .inr (List.mem_singleton.1 h)

theorem mem_ofName {previous : Option Token} {hints : List String} {s : String} {applied : Bool} {u : Token}
    (h : u ∈ ofName previous hints s applied) :
    u = op .times ∨ u = function s ∨ u = name s hints ∨ ∃ n, constant? (Text.lower s) = some n ∧ u = number n := by
  refine (mem_withProduct h).imp_right fun h => ?_
  split at h
  · exact .inl h
  · split at h
    · rename_i n hn
      exact .inr (.inr ⟨n, hn, h⟩)
    · exact .inr (.inl h)

/-- A text among the tokens of a lexeme is the lexeme. -/
theorem eq_of_text_mem_ofLexeme {previous : Option Token} {l : Lexeme} {s : String}
    (h : text s ∈ ofLexeme previous l) : l = .text s := by
  cases l with
  | text s' =>
      cases List.mem_singleton.1 h
      rfl
  | number x => rcases mem_withProduct h with h | h <;> cases h
  | boolean | operator => cases List.mem_singleton.1 h
  | name hints s' applied =>
      rcases mem_ofName h with h | h | h | ⟨n, -, h⟩ <;> cases h
  | mark m =>
      cases m with
      | openRound => rcases mem_withProduct h with h | h <;> cases h
      | _ => cases List.mem_singleton.1 h

/-- A number among the tokens of a lexeme is the lexeme, or has a name. -/
theorem eq_of_number_mem_ofLexeme {previous : Option Token} {l : Lexeme} {n : Number}
    (h : number n ∈ ofLexeme previous l) :
    (∃ x, l = .number x ∧ n = .real x) ∨ ∃ key, constant? key = some n := by
  cases l with
  | number x =>
      rcases mem_withProduct h with h | h <;> cases h
      exact .inl ⟨x, rfl, rfl⟩
  | text | boolean | operator => cases List.mem_singleton.1 h
  | name hints s applied =>
      rcases mem_ofName h with h | h | h | ⟨m, hm, h⟩ <;> cases h
      exact .inr ⟨_, hm⟩
  | mark m =>
      cases m with
      | openRound => rcases mem_withProduct h with h | h <;> cases h
      | _ => cases List.mem_singleton.1 h

theorem exists_of_mem_ofLexemes {previous : Option Token} {ls : List Lexeme} {u : Token}
    (h : u ∈ ofLexemes previous ls) : ∃ l ∈ ls, ∃ before, u ∈ ofLexeme before l := by
  induction ls generalizing previous with
  | nil => cases h
  | cons l ls ih =>
      rcases List.mem_append.1 h with h | h
      · exact ⟨l, List.mem_cons_self, previous, h⟩
      · obtain ⟨l', hl', hu⟩ := ih h
        exact ⟨l', List.mem_cons_of_mem l hl', hu⟩

/-- The tokens of source text come from lexemes that are recognised in it. -/
theorem exists_of_mem_ofSource {source : String} {ts : List Token} (h : ofSource source = .ok ts)
    {u : Token} (hu : u ∈ ts) :
    ∃ l rest n before, rest.length ≤ source.length ∧ Lexeme.recognise rest = some (some l, n) ∧
      u ∈ ofLexeme before l := by
  obtain ⟨ls, hls, hts⟩ := exists_of_bind_eq_ok h
  cases hts
  obtain ⟨l, hl, before, hu⟩ := exists_of_mem_ofLexemes hu
  obtain ⟨rest, n, hlength, hrest⟩ := Lexeme.exists_of_mem_scan hls hl
  exact ⟨l, rest, n, before, hlength, hrest, hu⟩

/-- The texts among the tokens of source text are shorter than this. -/
theorem length_lt_of_mem_ofSource {source s : String} {ts : List Token}
    (h : ofSource source = .ok ts) (hs : text s ∈ ts) : s.length < source.length := by
  obtain ⟨l, rest, n, before, hlength, hrest, hs⟩ := exists_of_mem_ofSource h hs
  rw [eq_of_text_mem_ofLexeme hs] at hrest
  exact Nat.lt_of_lt_of_le (Lexeme.length_lt_of_recognise hrest) hlength

end Token

theorem Text.length_strip (s : String) : (Text.strip s).length ≤ s.length := by
  have htrim (p : Char → Bool) (cs : List Char) : (cs.dropWhile p).length ≤ cs.length :=
    (List.dropWhile_sublist p).length_le
  unfold Text.strip stripChars trimBoth
  rw [String.length_ofList, List.length_reverse, ← String.length_toList]
  refine Nat.le_trans (htrim _ _) ?_
  rw [List.length_reverse]
  exact htrim _ _

/-- The texts in a tree are shorter than the source text of the tree. -/
theorem Tree.textBelow_of_ofSourceIn {isVariable : String → Bool} {source : String} {t : Tree}
    (h : ofSourceIn isVariable source = .ok (some t)) : t.Leaves (Value.TextBelow source.length) := by
  unfold ofSourceIn at h
  dsimp only at h
  split at h
  · cases h
  · obtain ⟨ts, hts, htree⟩ := exists_of_bind_eq_ok h
    have hts := eq_ok_of_mapError hts
    refine leaves_of_ofTokens (fun u hu => ?_) (fun _ _ _ => trivial) htree
    cases u with
    | text s => exact Nat.lt_of_lt_of_le (Token.length_lt_of_mem_ofSource hts hu) (Text.length_strip source)
    | _ => trivial

/-- Source text is read through its tokens. -/
theorem Scope.tree_eq_ofTokens {s : Scope} {source : String} {ts : List Token}
    (hts : Token.ofSource (Text.strip source) = .ok ts) (hsource : (Text.strip source).isEmpty = false) :
    s.tree source = Tree.ofTokens s.readsAsProduct ts := by
  unfold Scope.tree Tree.ofSourceIn
  dsimp only
  rw [hsource, if_neg Bool.false_ne_true, hts]
  rfl

namespace Text.Template

theorem length_slot_fst {depth : Nat} {cs : List Char} {r : List Char × List Char}
    (h : slot depth cs = some r) : r.1.length ≤ cs.length := by
  fun_induction slot depth cs generalizing r with
  | case1 => cases h
  | case2 depth c d rest hc ih | case4 depth rest hc ih | case6 rest _ _ depth ih
  | case7 depth c rest _ _ _ ih =>
      obtain ⟨x, hx, rfl⟩ := Option.map_eq_some_iff.1 h
      have := ih hx
      simp only [List.length_cons]
      omega
  | case3 => cases h
  | case5 rest =>
      cases h
      exact Nat.zero_le _

theorem length_of_mem_split {plain cs : List Char} {r : List Char × List Char}
    (h : r ∈ (split plain cs).2) : r.1.length ≤ cs.length := by
  fun_induction split plain cs with
  | case1 => cases h
  | case2 plain c hc d rest ih =>
      have := ih h
      simp only [List.length_cons]
      omega
  | case3 => cases h
  | case4 plain rest r' hslot after _ ih =>
      rw [List.length_cons]
      rcases List.mem_cons.1 h with rfl | h
      · have := length_slot_fst hslot
        dsimp only
        omega
      · have := ih h
        have := length_slot hslot
        omega
  | case5 => cases h
  | case6 plain c rest _ _ ih =>
      have := ih h
      rw [List.length_cons]
      omega

/-- A slot is not longer than the text that it stands in. -/
theorem length_le_of_mem_slots {s : String} {slot : String × String}
    (h : slot ∈ (ofText s).slots) : slot.1.length ≤ s.length := by
  obtain ⟨r, hr, rfl⟩ := List.mem_map.1 h
  rw [String.length_ofList, ← String.length_toList]
  exact length_of_mem_split hr

end Text.Template

end MathExpr
