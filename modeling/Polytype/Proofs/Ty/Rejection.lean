import Polytype.Proofs.Ty.Grammar

/-!
# Where a source stops being a type

A source that is refused for its tokens is refused at the first impossible one: the tokens before it
begin some type, and together with it they begin none. The column that is reported is the one where this
token starts, or the column of the end if the source stops too early (`parse_error_column`).

`StopsAt valid tokens column` says this of tokens that carry their columns. It goes from one token to
the next with the sequences that may follow, so each reader is compared with what may follow its state:
`Reader.Completes` for types, `CompletesParams` for parameter lists. Only then are the tokens traced back
to the characters that spell them (`StopsAt.exists_failsAfter`).
-/

namespace Polytype

open Polytype.Text
open Tokens

/-! ## Tokens that a text can hold -/

/-- A name, or a single character that is in no name and no blank. -/
def Token.Formed : Token → Prop
  | .ident name => isName name.toList
  | .mark c => isGap c = false ∧ isNameStart c = false

theorem Tokens.Spells.formed {cs : List Char} {ts : List Token} (h : Spells cs ts) :
    ∀ t ∈ ts, t.Formed := by
  induction h with
  | nil => simp
  | gap _ _ ih => exact ih
  | name hname _ _ ih =>
    refine List.forall_mem_cons.mpr ⟨?_, ih⟩
    show isName (String.ofList _).toList
    rwa [String.toList_ofList]
  | mark hgap hstart _ ih => exact List.forall_mem_cons.mpr ⟨⟨hgap, hstart⟩, ih⟩

/-- Such tokens are spelled by a text with a blank in front of each. -/
theorem exists_spells_iff {ts : List Token} : (∃ cs, Spells cs ts) ↔ ∀ t ∈ ts, t.Formed := by
  constructor
  · rintro ⟨cs, hcs⟩
    exact hcs.formed
  · intro h
    suffices hspaced : ∃ cs, EndsName cs ∧ Spells cs ts from
      ⟨hspaced.choose, hspaced.choose_spec.2⟩
    induction ts with
    | nil => exact ⟨[], by simp [EndsName], .nil⟩
    | cons t ts ih =>
      rw [List.forall_mem_cons] at h
      obtain ⟨cs, hends, hcs⟩ := ih h.2
      have hblank : ∀ ds, EndsName (' ' :: ds) := by simp [EndsName]; decide
      cases t with
      | ident name =>
        have hname := Spells.name h.1 hends hcs
        rw [String.ofList_toList] at hname
        exact ⟨_, hblank _, .gap (by decide) hname⟩
      | mark c => exact ⟨_, hblank _, .gap (by decide) (.mark h.1.1 h.1.2 hcs)⟩

/-- Every text spells some tokens. -/
theorem exists_spells (cs : List Char) : ∃ ts, Spells cs ts := by
  -- A name takes off more than one character, so the induction is on the length.
  induction hlen : cs.length using Nat.strong_induction_on generalizing cs with
  | _ n ih =>
    cases cs with
    | nil => exact ⟨[], .nil⟩
    | cons c cs =>
      rw [List.length_cons] at hlen
      by_cases hgap : isGap c
      · obtain ⟨ts, hts⟩ := ih cs.length (by omega) cs rfl
        exact ⟨ts, .gap hgap hts⟩
      by_cases hstart : isNameStart c
      · have hlength := (cs.dropWhile_suffix isNamePart).length_le
        obtain ⟨ts, hts⟩ := ih (cs.dropWhile isNamePart).length (by omega) _ rfl
        have hname : isName (c :: cs.takeWhile isNamePart) := by
          simp only [isName, hstart, Bool.true_and, List.all_eq_true]
          exact fun d hd => List.mem_takeWhile_imp hd
        have hends : EndsName (cs.dropWhile isNamePart) := by
          intro d hd
          have hhead := List.head?_dropWhile_not isNamePart cs
          rw [hd] at hhead
          simpa using hhead
        have := Spells.name hname hends hts
        rw [List.cons_append, List.takeWhile_append_dropWhile] at this
        exact ⟨_, this⟩
      · obtain ⟨ts, hts⟩ := ih cs.length (by omega) cs rfl
        exact ⟨_, .mark (Bool.eq_false_iff.mpr hgap) (Bool.eq_false_iff.mpr hstart) hts⟩

/-! ## Stopping -/

/-- Tokens that some more complete. -/
def Viable (valid : List Token → Prop) (ts : List Token) : Prop := ∃ us, valid (ts ++ us)

/-- The column of the first token, or of the end, that may not stand where it does. -/
inductive StopsAt : (List Token → Prop) → Tokens → Nat → Prop
  | token {valid : List Token → Prop} {t : Token} {column : Nat} {rest : Tokens} :
      Viable valid [] → ¬ Viable valid [t] → StopsAt valid (.token t column rest) column
  | finish {valid : List Token → Prop} {column : Nat} :
      Viable valid [] → ¬ valid [] → StopsAt valid (.finish column) column
  | later {valid : List Token → Prop} {t : Token} {start column : Nat} {rest : Tokens} :
      StopsAt (fun us => valid (t :: us)) rest column → StopsAt valid (.token t start rest) column

theorem StopsAt.congr {valid other : List Token → Prop} {tokens : Tokens} {column : Nat}
    (h : StopsAt valid tokens column) (heq : ∀ us, valid us ↔ other us) :
    StopsAt other tokens column := by
  have : valid = other := funext fun us => propext (heq us)
  rwa [← this]

/-! ## Types -/

/-- The tokens of a text that is a type. -/
def IsType (ts : List Token) : Prop := (∃ cs, Spells cs ts) ∧ ∃ t, Derives ts t

namespace Reader

/-- Tokens of a text that lead from a state to a type. -/
def Completes (r : Reader) (ts : List Token) : Prop :=
  (∀ t ∈ ts, t.Formed) ∧ ∃ u, (ts.foldlM step r).bind result? = some u

theorem completes_nil {r : Reader} : r.Completes [] ↔ ∃ u, r.result? = some u := by
  simp [Completes]

theorem completes_cons {r : Reader} {t : Token} (ht : t.Formed) {us : List Token} :
    r.Completes (t :: us) ↔ ∃ r', r.step t = some r' ∧ r'.Completes us := by
  cases hstep : r.step t <;> simp [Completes, ht, hstep]

theorem completes_start {ts : List Token} : start.Completes ts ↔ IsType ts := by
  -- Any tokens are those of a source, so what is known of runs over sources applies.
  have hsource : ∃ source : Tokens, source.list? = some ts := by
    induction ts with
    | nil => exact ⟨.finish 0, rfl⟩
    | cons t ts ih =>
      obtain ⟨source, hsource⟩ := ih
      exact ⟨.token t 0 source, by simp [Tokens.list?, hsource]⟩
  obtain ⟨source, hsource⟩ := hsource
  rw [IsType, exists_spells_iff]
  refine and_congr_right fun _ => exists_congr fun u => ?_
  have h : start.run source = .ok u ↔ ∃ ts, source.list? = some ts ∧ Derives ts u := run_start_eq_ok_iff
  rw [run_eq_ok_iff] at h
  simpa [hsource] using h

/-- Closing brackets complete a type that may end but for the constructors still open. -/
theorem completes_close (frames : List Frame) : ∀ phase : Phase, phase ≠ .want →
    Completes ⟨phase, frames⟩ (List.replicate frames.length (.mark '>')) := by
  induction frames with
  | nil =>
    intro phase hphase
    refine completes_nil.mpr ?_
    cases phase with
    | want => exact absurd rfl hphase
    | named name => exact ⟨_, rfl⟩
    | closed t => exact ⟨_, rfl⟩
  | cons frame outer ih =>
    intro phase hphase
    rw [List.length_cons, List.replicate_succ, completes_cons (by exact ⟨by decide, by decide⟩)]
    cases phase with
    | want => exact absurd rfl hphase
    | named name => exact ⟨_, rfl, ih _ (by simp)⟩
    | closed t => exact ⟨_, rfl, ih _ (by simp)⟩

/-- Every state can still lead to a type. -/
theorem viable_completes (r : Reader) : Viable r.Completes [] := by
  obtain ⟨phase, frames⟩ := r
  cases phase with
  | want =>
    refine ⟨.ident "A" :: List.replicate frames.length (.mark '>'), ?_⟩
    rw [List.nil_append, completes_cons (by show isName _ = true; decide)]
    exact ⟨_, rfl, completes_close frames _ (by simp)⟩
  | named name => exact ⟨_, completes_close frames _ (by simp)⟩
  | closed t => exact ⟨_, completes_close frames _ (by simp)⟩

/-- A run that fails stops at the first token that leads to no type. -/
theorem run_stopsAt {source : Tokens} {ts : List Token} (hlist : source.list? = some ts)
    (hformed : ∀ t ∈ ts, t.Formed) {r : Reader} {e : ParseError} (h : r.run source = .error e) :
    StopsAt r.Completes source e.column := by
  induction source generalizing r ts with
  | token t column rest ih =>
    obtain ⟨us, hus, rfl⟩ := Option.map_eq_some_iff.mp hlist
    rw [List.forall_mem_cons] at hformed
    rw [run] at h
    cases hstep : r.step t with
    | none =>
      rw [hstep] at h
      cases h
      refine .token r.viable_completes ?_
      rintro ⟨us, hus⟩
      obtain ⟨r', hr', _⟩ := (completes_cons hformed.1).mp hus
      rw [hstep] at hr'
      cases hr'
    | some r' =>
      rw [hstep] at h
      refine .later ((ih hus hformed.2 h).congr fun vs => ?_)
      rw [completes_cons hformed.1]
      simp [hstep]
  | finish column =>
    rw [run] at h
    cases hresult : r.result? with
    | some t =>
      rw [hresult] at h
      cases h
    | none =>
      rw [hresult] at h
      cases h
      exact .finish r.viable_completes (by simp [completes_nil, hresult])
  | fault cause column => cases hlist

end Reader

/-! ## Generic types -/

/-- The tokens of a text that is a generic type, but for parameters that are listed twice. -/
def IsScheme (ts : List Token) : Prop :=
  (∃ cs, Spells cs ts) ∧ ((∃ t, Derives ts t) ∨ ∃ ps params us t,
    ts = .mark '<' :: (ps ++ .mark '>' :: us) ∧ DerivesParams ps params ∧ Derives us t)

/-- Tokens of a text that complete a generic type after the start of its parameter list. -/
def CompletesParams (ts : List Token) : Prop :=
  (∀ t ∈ ts, t.Formed) ∧ ∃ ps params us t,
    ts = ps ++ .mark '>' :: us ∧ DerivesParams ps params ∧ Derives us t

theorem CompletesParams.head_eq {ts : List Token} (h : CompletesParams ts) :
    ∃ name t us, ts = .ident name :: t :: us := by
  obtain ⟨_, ps, params, us, t, rfl, hps, _⟩ := h
  cases hps with
  | last name => exact ⟨name, _, us, rfl⟩
  | more name hps => exact ⟨name, _, _, rfl⟩

/-- After a parameter the list goes on or the type follows. -/
theorem completesParams_ident {name : String} (hname : isName name.toList) {t : Token}
    {us : List Token} : CompletesParams (.ident name :: t :: us) ↔
      t = .mark ',' ∧ CompletesParams us ∨ t = .mark '>' ∧ IsType us := by
  constructor
  · rintro ⟨hformed, ps, params, vs, u, hts, hps, hu⟩
    simp only [List.forall_mem_cons] at hformed
    cases hps with
    | last name' =>
      cases hts
      exact .inr ⟨rfl, exists_spells_iff.mpr hformed.2.2, u, hu⟩
    | @more name' ps params hps =>
      cases hts
      exact .inl ⟨rfl, hformed.2.2, ps, params, vs, u, rfl, hps, hu⟩
  · rintro (⟨rfl, hformed, ps, params, vs, u, rfl, hps, hu⟩ | ⟨rfl, hspells, u, hu⟩)
    · refine ⟨?_, _, _, vs, u, rfl, .more name hps, hu⟩
      exact List.forall_mem_cons.mpr ⟨hname, List.forall_mem_cons.mpr ⟨⟨rfl, rfl⟩, hformed⟩⟩
    · refine ⟨?_, _, _, us, u, rfl, .last name, hu⟩
      exact List.forall_mem_cons.mpr
        ⟨hname, List.forall_mem_cons.mpr ⟨⟨rfl, rfl⟩, exists_spells_iff.mp hspells⟩⟩

theorem isType_name : IsType [.ident "A"] :=
  ⟨exists_spells_iff.mpr (by simp only [List.forall_mem_singleton]; show isName _ = true; decide),
    _, .name "A"⟩

theorem viable_completesParams_ident {name : String} (hname : isName name.toList) :
    Viable (fun us => CompletesParams (.ident name :: us)) [] :=
  ⟨[.mark '>', .ident "A"], (completesParams_ident hname).mpr (.inr ⟨rfl, isType_name⟩)⟩

theorem viable_completesParams : Viable CompletesParams [] := by
  obtain ⟨us, hus⟩ := viable_completesParams_ident (show isName "A".toList by decide)
  exact ⟨_, hus⟩

namespace Scheme

theorem list?_pair {t u : Token} {column column' : Nat} {rest : Tokens} {ts : List Token}
    (h : (Tokens.token t column (.token u column' rest)).list? = some ts) :
    ∃ us, ts = t :: u :: us ∧ rest.list? = some us := by
  simp only [Tokens.list?, Option.map_map, Option.map_eq_some_iff] at h
  obtain ⟨us, hus, rfl⟩ := h
  exact ⟨us, rfl, hus⟩

theorem map_eq_error {α β : Type} {r : Except ParseError α} {f : α → β} {e : ParseError}
    (h : r.map f = .error e) : r = .error e := by
  cases r with
  | ok a => cases h
  | error e' =>
    cases h
    rfl

/-- A parameter list is left at the first token that fits nowhere, unless a parameter is listed twice
before it. -/
theorem parseParams_stopsAt {before : List String} {source : Tokens} {ts : List Token}
    (hlist : source.list? = some ts) (hformed : ∀ t ∈ ts, t.Formed) {e : ParseError}
    (h : parseParams before source = .error e) (hdup : ∀ name, e.cause ≠ .duplicateParam name) :
    StopsAt CompletesParams source e.column := by
  fun_induction parseParams before source generalizing ts with
  | case1 before name start t column rest hmem =>
    cases h
    exact absurd rfl (hdup name)
  | case2 before name start column rest hnew ih =>
    obtain ⟨us, rfl, hus⟩ := list?_pair hlist
    simp only [List.forall_mem_cons] at hformed
    refine .later (.later ((ih hus hformed.2.2 h).congr fun vs => ?_))
    rw [completesParams_ident hformed.1]
    simp
  | case3 before name start column rest hnew hcomma =>
    obtain ⟨us, rfl, hus⟩ := list?_pair hlist
    simp only [List.forall_mem_cons] at hformed
    have hrun : Reader.start.run rest = .error e := map_eq_error h
    refine .later (.later ((Reader.run_stopsAt hus hformed.2.2 hrun).congr fun vs => ?_))
    rw [Reader.completes_start, completesParams_ident hformed.1]
    simp
  | case4 before name start t column rest hnew hcomma hclose =>
    obtain ⟨us, rfl, hus⟩ := list?_pair hlist
    simp only [List.forall_mem_cons] at hformed
    cases h
    refine .later (.token (viable_completesParams_ident hformed.1) ?_)
    rintro ⟨vs, hvs⟩
    rcases (completesParams_ident hformed.1).mp hvs with ⟨ht, _⟩ | ⟨ht, _⟩
    · exact hcomma ht
    · exact hclose ht
  | case5 before name start column hmem =>
    cases h
    exact absurd rfl (hdup name)
  | case6 before name start column hnew =>
    cases hlist
    rw [List.forall_mem_singleton] at hformed
    cases h
    refine .later (.finish (viable_completesParams_ident hformed) fun hvs => ?_)
    obtain ⟨_, _, _, hts⟩ := hvs.head_eq
    cases hts
  | case7 => cases hlist
  | case8 before t column rest hmore hfinish hfault =>
    cases h
    refine .token viable_completesParams ?_
    rintro ⟨vs, hvs⟩
    obtain ⟨name, u, us, hts⟩ := hvs.head_eq
    cases hts
    -- A name is followed by something, and all that may be were cases of their own.
    cases rest with
    | token v column' rest' => exact hmore name v column' rest' rfl rfl
    | finish column' => exact hfinish name column' rfl rfl
    | fault cause column' => exact hfault name cause column' rfl rfl
  | case9 before column =>
    cases h
    refine .finish viable_completesParams fun hvs => ?_
    obtain ⟨_, _, _, hts⟩ := hvs.head_eq
    cases hts
  | case10 => cases hlist

/-- Without a bracket at the start, a generic type is a type. -/
theorem isScheme_cons {t : Token} (ht : t ≠ .mark '<') {us : List Token} :
    IsScheme (t :: us) ↔ IsType (t :: us) := by
  simp [IsScheme, IsType, ht]

theorem isScheme_open {us : List Token} : IsScheme (.mark '<' :: us) ↔ CompletesParams us := by
  rw [IsScheme, CompletesParams, exists_spells_iff, List.forall_mem_cons]
  have hopen : (Token.mark '<').Formed := ⟨rfl, rfl⟩
  have hname : ¬ ∃ t, Derives (.mark '<' :: us) t := by
    rintro ⟨t, ht⟩
    obtain ⟨_, _, hhead⟩ := ht.head_eq
    cases hhead
  simp [hopen, hname]

theorem not_isScheme_nil : ¬ IsScheme [] := by
  rintro ⟨_, ⟨t, ht⟩ | ⟨_, _, _, _, hts, _⟩⟩
  · obtain ⟨_, _, hhead⟩ := ht.head_eq
    cases hhead
  · cases hts

theorem parse_stopsAt {source : Source} {ts : List Token}
    (hlist : (Tokens.ofSource source).list? = some ts) (hformed : ∀ t ∈ ts, t.Formed)
    {e : ParseError} (h : Scheme.parse source = .error e)
    (hdup : ∀ name, e.cause ≠ .duplicateParam name) :
    StopsAt IsScheme (Tokens.ofSource source) e.column := by
  rw [Scheme.parse] at h
  split at h
  · rename_i column rest hsource
    rw [hsource] at hlist ⊢
    obtain ⟨us, hus, rfl⟩ := Option.map_eq_some_iff.mp hlist
    rw [List.forall_mem_cons] at hformed
    refine .later ((parseParams_stopsAt hus hformed.2 h hdup).congr fun vs => ?_)
    exact isScheme_open.symm
  · rename_i hfirst
    have hstop := (Reader.run_stopsAt hlist hformed (map_eq_error h)).congr fun us =>
      Reader.completes_start
    have hviable : Viable IsScheme [] :=
      ⟨_, (isScheme_cons (by simp)).mpr isType_name⟩
    generalize Tokens.ofSource source = tokens at hstop hfirst
    cases hstop with
    | @token _ t _ rest _ hnot =>
      have ht : t ≠ .mark '<' := by
        rintro rfl
        exact hfirst _ rest rfl
      refine .token hviable ?_
      rintro ⟨us, hus⟩
      exact hnot ⟨us, (isScheme_cons ht).mp hus⟩
    | finish _ _ => exact .finish hviable not_isScheme_nil
    | @later _ t start _ rest hrest =>
      have ht : t ≠ .mark '<' := by
        rintro rfl
        exact hfirst start rest rfl
      exact .later (hrest.congr fun us => (isScheme_cons ht).symm)

end Scheme

/-! ## Columns -/

namespace Tokens

/-- The column reached after some characters, from a given one; a line feed goes back to 0. -/
def columnFrom (column : Nat) (cs : List Char) : Nat :=
  cs.foldl (fun n c => if c = '\n' then 0 else n + 1) column

@[simp] theorem columnFrom_nil (column : Nat) : columnFrom column [] = column := rfl

@[simp] theorem columnFrom_append (column : Nat) (cs ds : List Char) :
    columnFrom column (cs ++ ds) = columnFrom (columnFrom column cs) ds := List.foldl_append

/-- The column where a token starts after some characters: one more than there are of them in the
last line. -/
def columnAfter (cs : List Char) : Nat := (cs.reverse.takeWhile (· ≠ '\n')).length + 1

theorem columnFrom_zero (cs : List Char) : columnFrom 0 cs + 1 = columnAfter cs := by
  rw [columnAfter]
  congr 1
  induction cs using List.reverseRecOn with
  | nil => rfl
  | append_singleton cs c ih =>
    by_cases hc : c = '\n'
    · simp [columnFrom, hc]
    · simpa [columnFrom, hc] using ih

theorem place_cons (column : Nat) (c : Char) (cs : List Char) :
    (place column ((c :: cs).map some)).1 =
      (some c, column + 1) :: (place (columnFrom column [c]) (cs.map some)).1 := by
  simp [place, columnFrom]

theorem place_stop (column : Nat) (cs : List Char) :
    (place column (cs.map some)).2 = columnFrom column cs + 1 := by
  induction cs generalizing column with
  | nil => rfl
  | cons c cs ih => simpa [place, columnFrom] using ih _

theorem spanName_place {name cs : List Char} (hname : ∀ c ∈ name, isNamePart c) (hcs : EndsName cs)
    (column : Nat) : (spanName (place column ((name ++ cs).map some)).1).2 =
      (place (columnFrom column name) (cs.map some)).1 := by
  induction name generalizing column with
  | nil => rw [List.nil_append, spanName_of_endsName hcs (symbols_place _ _), columnFrom_nil]
  | cons c name ih =>
    rw [List.forall_mem_cons] at hname
    rw [List.cons_append, place_cons]
    simp only [spanName, hname.1, if_true]
    exact ih hname.2 (columnFrom column [c])

/-! One token is read off the front of a placed text. -/

theorem read_place_gap {c : Char} (hc : c ≠ '\x00') (hgap : isGap c) (stop last column : Nat)
    (cs : List Char) : read stop last (place column ((c :: cs).map some)).1 =
      read stop last (place (columnFrom column [c]) (cs.map some)).1 := by
  rw [place_cons, read, if_neg (mt toNat_eq_zero_iff.mp hc), if_pos hgap]

theorem read_place_name {name cs : List Char} (hname : isName name) (hends : EndsName cs)
    (hnul : '\x00' ∉ name ++ cs) (stop last column : Nat) :
    read stop last (place column ((name ++ cs).map some)).1 =
      .token (.ident (String.ofList name)) (column + 1)
        (read stop (column + 1) (place (columnFrom column name) (cs.map some)).1) := by
  cases name with
  | nil => cases hname
  | cons c name =>
    simp only [isName, Bool.and_eq_true, List.all_eq_true] at hname
    rw [List.cons_append, List.mem_cons, List.mem_append, not_or, not_or] at hnul
    have hspan := spanName_append hname.2 hends (symbols_place (columnFrom column [c]) _)
    have hfault := nextFault?_eq_none hnul.2.2 (symbols_place (columnFrom (columnFrom column [c]) name) _)
    rw [List.cons_append, place_cons, read, if_neg (fun h => hnul.1 (toNat_eq_zero_iff.mp h).symm),
      if_neg (by simp [isGap_of_isNameStart hname.1]), if_pos hname.1]
    simp only [hspan.1, hfault, spanName_place hname.2 hends]
    rfl

theorem read_place_mark {c : Char} {cs : List Char} (hgap : isGap c = false)
    (hstart : isNameStart c = false) (hnul : '\x00' ∉ c :: cs) (stop last column : Nat) :
    read stop last (place column ((c :: cs).map some)).1 = .token (.mark c) (column + 1)
      (read stop (column + 1) (place (columnFrom column [c]) (cs.map some)).1) := by
  rw [List.mem_cons, not_or] at hnul
  have hfault := nextFault?_eq_none hnul.2 (symbols_place (columnFrom column [c]) _)
  rw [place_cons, read, if_neg (fun h => hnul.1 (toNat_eq_zero_iff.mp h).symm),
    if_neg (by simp [hgap]), if_neg (by simp [hstart])]
  simp only [hfault]

/-- A text is read from its start, or after a U+FEFF there, which takes up a column. -/
theorem ofSource_eq_read_place {cs : List Char} (hcs : cs ≠ []) :
    ofSource (cs.map some) = read (columnFrom 0 cs + 1) 0
      (place (if cs.head? = some '\uFEFF' then 1 else 0) ((unmarked cs).map some)).1 := by
  cases cs with
  | nil => exact absurd rfl hcs
  | cons c cs =>
    have hc : c.toNat = 0xFEFF ↔ c = '\uFEFF' := by
      rw [← Char.toNat_inj]
      rfl
    have hstop := place_stop 0 (c :: cs)
    have hplaced := place_cons 0 c cs
    simp only [List.map_cons] at hstop hplaced ⊢
    simp only [ofSource, hstop, hplaced]
    by_cases h : c = '\uFEFF'
    · rw [if_pos (hc.mpr h), h]
      rfl
    · rw [if_neg (mt hc.mp h), unmarked]
      simp [h, ← hplaced]

end Tokens

/-! ## Characters -/

/-- Nothing that goes on with `rest` after the tokens `us` is valid, although something after them is:
`rest` starts with a token that cannot follow, or it is empty and they are not all. The tokens of the
whole text are `ts`. -/
def Refused (valid : List Token → Prop) (us : List Token) (rest : List Char) (ts : List Token) : Prop :=
  Viable valid us ∧ (rest = [] ∧ ts = us ∧ ¬ valid us ∨
    ∃ t vs, (∀ c ∈ rest.head?, isGap c = false) ∧ Spells rest (t :: vs) ∧ ts = us ++ t :: vs ∧
      ¬ Viable valid (us ++ [t]))

theorem Refused.cons {valid : List Token → Prop} {us ts : List Token} {rest : List Char} {t : Token}
    (h : Refused (fun us => valid (t :: us)) us rest ts) : Refused valid (t :: us) rest (t :: ts) := by
  obtain ⟨hviable, ⟨hrest, rfl, hnot⟩ | ⟨u, vs, hhead, hspells, rfl, hnot⟩⟩ := h
  · exact ⟨hviable, .inl ⟨hrest, rfl, hnot⟩⟩
  · exact ⟨hviable, .inr ⟨u, vs, hhead, hspells, rfl, hnot⟩⟩

theorem endsName_of_append {cs ds : List Char} (h : EndsName (cs ++ ds)) : EndsName cs := by
  cases cs with
  | nil => simp [EndsName]
  | cons c cs => exact h

/-- Where the tokens of a text stop, its characters can be split. -/
theorem StopsAt.exists_refused {cs : List Char} {ts : List Token} (hspells : Spells cs ts)
    (hnul : '\x00' ∉ cs) {valid : List Token → Prop} {start last column : Nat}
    (h : StopsAt valid (read (columnFrom start cs + 1) last (place start (cs.map some)).1) column) :
    ∃ before rest us, cs = before ++ rest ∧ Spells before us ∧ Refused valid us rest ts ∧
      column = columnFrom start before + 1 := by
  induction hspells generalizing valid start last column with
  | nil =>
    rw [List.map_nil, place, Tokens.read] at h
    cases h with
    | finish hviable hnot => exact ⟨[], [], [], rfl, .nil, ⟨hviable, .inl ⟨rfl, rfl, hnot⟩⟩, rfl⟩
  | @gap c cs ts hgap hcs ih =>
    rw [List.mem_cons, not_or] at hnul
    rw [read_place_gap (Ne.symm hnul.1) hgap] at h
    obtain ⟨before, rest, us, rfl, hbefore, hrefused, hcolumn⟩ := ih hnul.2 h
    exact ⟨c :: before, rest, us, rfl, .gap hgap hbefore, hrefused, hcolumn⟩
  | @name name cs ts hname hends hcs ih =>
    rw [read_place_name hname hends hnul, columnFrom_append] at h
    rw [List.mem_append, not_or] at hnul
    cases h with
    | token hviable hnot =>
      refine ⟨[], _, [], rfl, .nil, ⟨hviable, .inr ⟨_, ts, ?_, .name hname hends hcs, rfl, hnot⟩⟩, rfl⟩
      intro c hc
      cases name with
      | nil => cases hname
      | cons d name =>
        cases hc
        exact isGap_of_isNameStart (Bool.and_eq_true_iff.mp hname).1
    | later h =>
      obtain ⟨before, rest, us, rfl, hbefore, hrefused, hcolumn⟩ := ih hnul.2 h
      refine ⟨name ++ before, rest, _, by rw [List.append_assoc],
        .name hname (endsName_of_append hends) hbefore, hrefused.cons, ?_⟩
      rw [hcolumn, columnFrom_append]
  | @mark c cs ts hgap hstart hcs ih =>
    rw [read_place_mark hgap hstart hnul] at h
    rw [List.mem_cons, not_or] at hnul
    cases h with
    | token hviable hnot =>
      refine ⟨[], _, [], rfl, .nil, ⟨hviable, .inr ⟨_, ts, ?_, .mark hgap hstart hcs, rfl, hnot⟩⟩, rfl⟩
      rintro d ⟨⟩
      exact hgap
    | later h =>
      obtain ⟨before, rest, us, rfl, hbefore, hrefused, hcolumn⟩ := ih hnul.2 h
      exact ⟨c :: before, rest, _, rfl, .mark hgap hstart hbefore, hrefused.cons, hcolumn⟩

/-- The column that is reported for a text: where the first impossible token starts, or where the text
ends too early. An empty text ends in column 0. -/
def FailsAt (valid : List Token → Prop) (text : List Char) (column : Nat) : Prop :=
  ∃ before rest us ts, text = before ++ rest ∧ Spells (unmarked before) us ∧
    Spells (unmarked text) ts ∧ Refused valid us rest ts ∧
    column = if text = [] then 0 else columnAfter before

theorem StopsAt.failsAt {valid : List Token → Prop} {cs : List Char} (hnul : '\x00' ∉ cs) {column : Nat}
    (h : StopsAt valid (Tokens.ofSource (cs.map some)) column) : FailsAt valid cs column := by
  by_cases hcs : cs = []
  · subst hcs
    cases h with
    | finish hviable hnot =>
      exact ⟨[], [], [], [], rfl, .nil, .nil, ⟨hviable, .inl ⟨rfl, rfl, hnot⟩⟩, rfl⟩
  obtain ⟨ts, hts⟩ := exists_spells (unmarked cs)
  rw [ofSource_eq_read_place hcs] at h
  by_cases hmark : cs.head? = some '\uFEFF'
  · obtain ⟨ds, rfl⟩ := List.head?_eq_some_iff.mp hmark
    obtain ⟨before, rest, us, rfl, hus, hrefused, hcolumn⟩ :=
      h.exists_refused (show Spells ds ts from hts) (fun h => hnul (List.mem_cons_of_mem _ h))
    refine ⟨'\uFEFF' :: before, rest, us, ts, rfl, hus, hts, hrefused, ?_⟩
    rw [if_neg hcs, ← columnFrom_zero, hcolumn]
    rfl
  · have hwhole : unmarked cs = cs := if_neg hmark
    rw [hwhole] at h hts
    rw [if_neg hmark] at h
    obtain ⟨before, rest, us, rfl, hus, hrefused, hcolumn⟩ := h.exists_refused hts hnul
    have hfront : unmarked before = before := by
      refine if_neg fun hhead => hmark ?_
      rw [List.head?_append, hhead, Option.some_or]
    refine ⟨before, rest, us, ts, rfl, hfront.symm ▸ hus, hwhole.symm ▸ hts, hrefused, ?_⟩
    rw [if_neg hcs, ← columnFrom_zero, hcolumn]

/-- A text without U+0000 that is refused as a type is refused at the first token that no type can have
there, and its column is reported. The same holds of generic types, unless the complaint is that a
parameter is listed twice. -/
theorem parse_error_column (text : String) (hnul : '\x00' ∉ text.toList) :
    (∀ e, Ty.parse (.ofBytes (utf8 text)) = .error e → FailsAt IsType text.toList e.column) ∧
    (∀ e, Scheme.parse (.ofBytes (utf8 text)) = .error e →
      (∀ name, e.cause ≠ .duplicateParam name) → FailsAt IsScheme text.toList e.column) := by
  obtain ⟨ts, hts⟩ := exists_spells (unmarked text.toList)
  have hsource : Source.ofBytes (utf8 text) = text.toList.map some := ofBytes_utf8 text
  have hlist : (Tokens.ofSource (text.toList.map some)).list? = some ts :=
    Tokens.list?_ofSource_eq_some_iff.mpr ⟨_, rfl, hnul, hts⟩
  rw [hsource]
  constructor
  · intro e he
    have hstop := Reader.run_stopsAt hlist hts.formed he
    exact (hstop.congr fun us => Reader.completes_start).failsAt hnul
  · intro e he hdup
    exact (Scheme.parse_stopsAt hlist hts.formed he hdup).failsAt hnul

/-- A parameter list over two lines that lacks a comma in the second; as a type it is refused at once. -/
theorem parse_error_column_two_lines :
    let text := "\uFEFF<A,\n B C> A"
    '\x00' ∉ text.toList ∧
    Ty.parse (.ofBytes (utf8 text)) = .error ⟨2, .expectedName (.token "<")⟩ ∧
    FailsAt IsType text.toList 2 ∧
    Scheme.parse (.ofBytes (utf8 text)) = .error ⟨4, .expectedClose (.token "C")⟩ ∧
    FailsAt IsScheme text.toList 4 := by
  intro text
  have hnul : '\x00' ∉ text.toList := by decide
  have htype : Ty.parse (.ofBytes (utf8 text)) = .error ⟨2, .expectedName (.token "<")⟩ := by cbv
  have hscheme : Scheme.parse (.ofBytes (utf8 text)) = .error ⟨4, .expectedClose (.token "C")⟩ := by cbv
  exact ⟨hnul, htype, (parse_error_column text hnul).1 _ htype, hscheme,
    (parse_error_column text hnul).2 _ hscheme (by simp)⟩

end Polytype
