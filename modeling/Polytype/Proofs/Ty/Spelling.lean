import Mathlib.Data.List.Basic
import Polytype.Ty.Token

/-!
# Which tokens a text spells

`Spells cs ts` says that the characters `cs` are the tokens `ts` with blanks between them, where a name
goes on for as long as it can. A source yields a list of tokens without meeting a fault exactly if it
is a text without U+0000 that spells them, apart from a U+FEFF at its start
(`list?_ofSource_eq_some_iff`).
-/

namespace Polytype

open Polytype.Text

namespace Tokens

/-- The tokens of a source that has no fault. -/
def list? : Tokens → Option (List Token)
  | token t _ rest => rest.list?.map (t :: ·)
  | finish _ => some []
  | fault _ _ => none

theorem list?_eq_some_cons {tokens : Tokens} {t : Token} {ts : List Token} :
    tokens.list? = some (t :: ts) ↔
      ∃ column rest, tokens = .token t column rest ∧ rest.list? = some ts := by
  cases tokens with
  | token u column rest => simp [list?, and_comm]
  | finish column => simp [list?]
  | fault cause column => simp [list?]

/-! ## Character classes -/

/-- Whether characters make up a name. -/
def isName : List Char → Bool
  | [] => false
  | c :: cs => isNameStart c && cs.all isNamePart

theorem isNamePart_of_isNameStart {c : Char} (h : isNameStart c) : isNamePart c := by
  unfold isNameStart at h
  simp [isNamePart, h]

theorem isNamePart_of_isName {name : List Char} (h : isName name) : ∀ c ∈ name, isNamePart c := by
  cases name with
  | nil => simp
  | cons c cs =>
    simp only [isName, Bool.and_eq_true, List.all_eq_true] at h
    exact List.forall_mem_cons.mpr ⟨isNamePart_of_isNameStart h.1, h.2⟩

/-- A blank is no part of a name. -/
theorem not_isNamePart_of_isGap {c : Char} (h : isGap c) : isNamePart c = false := by
  simp only [isGap, Bool.or_eq_true, beq_iff_eq] at h
  rcases h with ((rfl | rfl) | rfl) | rfl <;> rfl

theorem isGap_of_isNameStart {c : Char} (h : isNameStart c) : isGap c = false := by
  rw [Bool.eq_false_iff]
  intro hgap
  have hpart := isNamePart_of_isNameStart h
  rw [not_isNamePart_of_isGap hgap] at hpart
  cases hpart

/-! ## Spelling -/

/-- No name that ends before these characters goes on with them. -/
def EndsName (cs : List Char) : Prop := ∀ c ∈ cs.head?, isNamePart c = false

/-- Characters and the tokens they spell. -/
inductive Spells : List Char → List Token → Prop
  | nil : Spells [] []
  | gap {c : Char} {cs : List Char} {ts : List Token} : isGap c → Spells cs ts → Spells (c :: cs) ts
  | name {name cs : List Char} {ts : List Token} : isName name → EndsName cs → Spells cs ts →
      Spells (name ++ cs) (.ident (String.ofList name) :: ts)
  | mark {c : Char} {cs : List Char} {ts : List Token} : isGap c = false → isNameStart c = false →
      Spells cs ts → Spells (c :: cs) (.mark c :: ts)

/-- A character that is no blank and in no name is a token of its own. -/
theorem Spells.mark_mem {cs : List Char} {ts : List Token} (h : Spells cs ts) {c : Char}
    (hc : c ∈ cs) (hgap : isGap c = false) (hpart : isNamePart c = false) : .mark c ∈ ts := by
  induction h with
  | nil => cases hc
  | gap hd _ ih =>
    rcases List.mem_cons.mp hc with rfl | hc
    · rw [hgap] at hd
      cases hd
    · exact ih hc
  | name hname _ _ ih =>
    rcases List.mem_append.mp hc with hc | hc
    · have := isNamePart_of_isName hname c hc
      rw [hpart] at this
      cases this
    · exact List.mem_cons_of_mem _ (ih hc)
  | mark _ _ _ ih =>
    rcases List.mem_cons.mp hc with rfl | hc
    · exact List.mem_cons_self
    · exact List.mem_cons_of_mem _ (ih hc)

/-- Characters without a U+FEFF at their start. -/
def unmarked (cs : List Char) : List Char :=
  if cs.head? = some '\uFEFF' then cs.tail else cs

/-! ## Reading what is spelled -/

/-- The symbols of a placed source. -/
def symbols (placed : List Placed) : Source := placed.map Prod.fst

@[simp] theorem symbols_cons (symbol : Option Char) (column : Nat) (rest : List Placed) :
    symbols ((symbol, column) :: rest) = symbol :: symbols rest := rfl

theorem symbols_eq_cons {placed : List Placed} {symbol : Option Char} {source : Source}
    (h : symbols placed = symbol :: source) :
    ∃ column rest, placed = (symbol, column) :: rest ∧ symbols rest = source := by
  cases placed with
  | nil => cases h
  | cons p rest =>
    rw [symbols_cons p.1 p.2] at h
    obtain ⟨hhead, htail⟩ := List.cons.inj h
    exact ⟨p.2, rest, by rw [← hhead], htail⟩

theorem symbols_place (column : Nat) (source : Source) : symbols (place column source).1 = source := by
  induction source generalizing column with
  | nil => rfl
  | cons symbol rest ih =>
    simp only [place, symbols_cons]
    rw [ih]

theorem spanName_of_endsName {cs : List Char} {placed : List Placed} (hcs : EndsName cs)
    (h : symbols placed = cs.map some) : spanName placed = ([], placed) := by
  cases cs with
  | nil =>
    rw [List.map_eq_nil_iff.mp h]
    rfl
  | cons c cs =>
    rcases symbols_eq_cons h with ⟨column, rest, rfl, -⟩
    have hc : isNamePart c = false := hcs c rfl
    simp [spanName, hc]

/-- A name is taken off the front up to where it ends. -/
theorem spanName_append {name cs : List Char} {placed : List Placed}
    (hname : ∀ c ∈ name, isNamePart c) (hcs : EndsName cs)
    (h : symbols placed = (name ++ cs).map some) :
    (spanName placed).1 = name ∧ symbols (spanName placed).2 = cs.map some := by
  induction name generalizing placed with
  | nil =>
    rw [spanName_of_endsName hcs h]
    exact ⟨rfl, h⟩
  | cons c name ih =>
    rw [List.forall_mem_cons] at hname
    rcases symbols_eq_cons h with ⟨column, rest, rfl, hrest⟩
    obtain ⟨hfst, hsnd⟩ := ih hname.2 hrest
    simp [spanName, hname.1, hfst, hsnd]

/-- What is taken off the front as a name, and that it ends there. -/
theorem symbols_spanName (placed : List Placed) :
    symbols placed = (spanName placed).1.map some ++ symbols (spanName placed).2 ∧
      (∀ c ∈ (spanName placed).1, isNamePart c) ∧
      ∀ cs, symbols (spanName placed).2 = cs.map some → EndsName cs := by
  fun_induction spanName placed with
  | case1 =>
    refine ⟨rfl, by simp, ?_⟩
    intro cs h
    rw [List.map_eq_nil_iff.mp h.symm]
    simp [EndsName]
  | case2 column rest c hc name tail heq ih =>
    rw [heq] at ih
    exact ⟨congrArg _ ih.1, List.forall_mem_cons.mpr ⟨hc, ih.2.1⟩, ih.2.2⟩
  | case3 column rest c hc =>
    refine ⟨rfl, by simp, ?_⟩
    intro cs h d hd
    cases cs with
    | nil => cases hd
    | cons e cs =>
      cases hd
      cases (List.cons.inj h).1
      exact Bool.eq_false_iff.mpr hc
  | case4 column rest =>
    refine ⟨rfl, by simp, ?_⟩
    intro cs h
    cases cs with
    | nil => simp [EndsName]
    | cons e cs => cases (List.cons.inj h).1

theorem toNat_eq_zero_iff {c : Char} : c.toNat = 0 ↔ c = '\x00' := by
  rw [← Char.toNat_inj]
  rfl

theorem nextFault?_eq_none {cs : List Char} {placed : List Placed} (hnul : '\x00' ∉ cs)
    (h : symbols placed = cs.map some) : nextFault? placed = none := by
  cases cs with
  | nil =>
    rw [List.map_eq_nil_iff.mp h]
    rfl
  | cons c cs =>
    rcases symbols_eq_cons h with ⟨column, rest, rfl, -⟩
    have hc : c ≠ '\x00' := fun h => hnul (h ▸ List.mem_cons_self)
    simp [nextFault?, lexicalFault?, toNat_eq_zero_iff, hc]

/-- A text without U+0000 is read as the tokens that it spells. -/
theorem list?_read_of_spells {cs : List Char} {ts : List Token} (h : Spells cs ts)
    (hnul : '\x00' ∉ cs) {placed : List Placed} (hplaced : symbols placed = cs.map some)
    (stop last : Nat) : (read stop last placed).list? = some ts := by
  induction h generalizing placed last with
  | nil =>
    rw [List.map_eq_nil_iff.mp hplaced, read]
    rfl
  | gap hgap _ ih =>
    rcases symbols_eq_cons hplaced with ⟨column, rest, rfl, hrest⟩
    rw [List.mem_cons, not_or] at hnul
    rw [read, if_neg (fun h => hnul.1 (toNat_eq_zero_iff.mp h).symm), if_pos hgap]
    exact ih hnul.2 hrest last
  | @name name cs ts hname hcs _ ih =>
    cases name with
    | nil => cases hname
    | cons c name =>
      rcases symbols_eq_cons hplaced with ⟨column, rest, rfl, hrest⟩
      simp only [isName, Bool.and_eq_true, List.all_eq_true] at hname
      rw [List.cons_append, List.mem_cons, List.mem_append, not_or, not_or] at hnul
      obtain ⟨hfst, hsnd⟩ := spanName_append hname.2 hcs hrest
      -- A fault right behind a name would swallow it, so the rest must be known to have none.
      have hfault := nextFault?_eq_none hnul.2.2 hsnd
      have htail := ih hnul.2.2 hsnd column
      rw [read, if_neg (fun h => hnul.1 (toNat_eq_zero_iff.mp h).symm),
        if_neg (by simp [isGap_of_isNameStart hname.1]), if_pos hname.1]
      simp [hfst, hfault, list?, htail]
  | mark hgap hstart _ ih =>
    rcases symbols_eq_cons hplaced with ⟨column, rest, rfl, hrest⟩
    rw [List.mem_cons, not_or] at hnul
    have hfault := nextFault?_eq_none hnul.2 hrest
    have htail := ih hnul.2 hrest column
    rw [read, if_neg (fun h => hnul.1 (toNat_eq_zero_iff.mp h).symm), if_neg (by simp [hgap]),
      if_neg (by simp [hstart])]
    simp [hfault, list?, htail]

/-- What is read without a fault is a text that spells the tokens. -/
theorem spells_of_list?_read {stop last : Nat} {placed : List Placed} {ts : List Token}
    (h : (read stop last placed).list? = some ts) :
    ∃ cs, symbols placed = cs.map some ∧ '\x00' ∉ cs ∧ Spells cs ts := by
  -- Both the blanks and the name are part of the text, so each step puts its characters back.
  fun_induction read stop last placed generalizing ts with
  | case1 last =>
    cases h
    exact ⟨[], rfl, by simp, .nil⟩
  | case2 | case3 => cases h
  | case4 last c column rest hzero hgap ih =>
    rcases ih h with ⟨cs, hrest, hnul, hspells⟩
    refine ⟨c :: cs, by rw [symbols_cons, hrest, List.map_cons], ?_, .gap hgap hspells⟩
    simp [hnul, eq_comm, ← toNat_eq_zero_iff, hzero]
  | case5 | case7 => cases h
  | case6 last c column rest hzero hgap hstart name hfault =>
    rename_i ih
    simp only [list?, Option.map_eq_some_iff] at h
    rcases h with ⟨us, hus, rfl⟩
    rcases ih hus with ⟨cs, hrest, hnul, hspells⟩
    obtain ⟨hsplit, hpart, hends⟩ := symbols_spanName rest
    have hname : isName (c :: (spanName rest).1) := by
      simp only [isName, Bool.and_eq_true, List.all_eq_true]
      exact ⟨hstart, hpart⟩
    refine ⟨c :: (spanName rest).1 ++ cs, ?_, ?_, .name hname (hends cs hrest) hspells⟩
    · rw [symbols_cons, hsplit, hrest, List.cons_append, List.map_cons, List.map_append]
    · rw [List.mem_append, not_or]
      exact ⟨fun h => absurd (isNamePart_of_isName hname _ h) (by decide), hnul⟩
  | case8 last c column rest hzero hgap hstart hfault ih =>
    simp only [list?, Option.map_eq_some_iff] at h
    rcases h with ⟨us, hus, rfl⟩
    rcases ih hus with ⟨cs, hrest, hnul, hspells⟩
    refine ⟨c :: cs, by rw [symbols_cons, hrest, List.map_cons], ?_,
      .mark (Bool.eq_false_iff.mpr hgap) (Bool.eq_false_iff.mpr hstart) hspells⟩
    simp [hnul, eq_comm, ← toNat_eq_zero_iff, hzero]

/-! ## Whole sources -/

/-- A source is read after its first symbol if that is U+FEFF. -/
theorem ofSource_eq_read (source : Source) : ∃ stop placed, ofSource source = read stop 0 placed ∧
    symbols placed = if source.head? = some (some '\uFEFF') then source.tail else source := by
  cases source with
  | nil =>
    refine ⟨0, [], ?_, rfl⟩
    rw [read]
    rfl
  | cons symbol rest =>
    have hplaced := symbols_place 0 (symbol :: rest)
    simp only [ofSource, List.head?_cons, List.tail_cons]
    generalize (place 0 (symbol :: rest)).1 = placed at hplaced
    rcases symbols_eq_cons hplaced with ⟨column, placed, rfl, hrest⟩
    cases symbol with
    | none => exact ⟨_, _, rfl, by simpa using hrest⟩
    | some c =>
      have hc : c.toNat = 0xFEFF ↔ c = '\uFEFF' := by
        rw [← Char.toNat_inj]
        rfl
      by_cases h : c = '\uFEFF'
      · exact ⟨_, placed, if_pos (hc.mpr h), by simp [h, hrest]⟩
      · exact ⟨_, (some c, column) :: placed, if_neg (mt hc.mp h), by simp [h, hrest]⟩

/-- A source yields tokens exactly if it is a text without U+0000 that spells them. -/
theorem list?_ofSource_eq_some_iff {source : Source} {ts : List Token} :
    (ofSource source).list? = some ts ↔
      ∃ cs : List Char, source = cs.map some ∧ '\x00' ∉ cs ∧ Spells (unmarked cs) ts := by
  rcases ofSource_eq_read source with ⟨stop, placed, hread, hplaced⟩
  rw [hread]
  constructor
  · intro h
    rcases spells_of_list?_read h with ⟨cs, hcs, hnul, hspells⟩
    rw [hplaced] at hcs
    split_ifs at hcs with hmark
    · refine ⟨'\uFEFF' :: cs, ?_, ?_, hspells⟩
      · rw [List.map_cons, ← hcs]
        exact (List.cons_head?_tail hmark).symm
      · simpa using hnul
    · refine ⟨cs, hcs, hnul, ?_⟩
      rw [unmarked, if_neg]
      · exact hspells
      · intro hcs'
        rw [hcs, List.head?_map, hcs'] at hmark
        exact hmark rfl
  · rintro ⟨cs, hcs, hnul, hspells⟩
    have hsymbols : symbols placed = (unmarked cs).map some := by
      rw [hplaced, hcs, unmarked, List.head?_map, apply_ite (List.map some), List.map_tail]
      simp
    refine list?_read_of_spells hspells (fun h => hnul ?_) hsymbols stop 0
    unfold unmarked at h
    split_ifs at h with hmark
    · exact List.mem_of_mem_tail h
    · exact h

end Tokens

end Polytype
