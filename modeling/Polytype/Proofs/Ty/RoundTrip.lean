import Polytype.Proofs.Ty.Grammar

/-!
# Reading what was printed

The text of a type spells the tokens of the type, so reading it gives the type back, whatever its
constructors are called as long as an annotation can hold their names. The same holds of generic types
with distinct parameters.

A name goes on for as long as it can, so it matters what stands after a printed type. `SpellsBefore`
therefore speaks of a type in front of other characters.
-/

namespace Polytype

open Polytype.Text
open Tokens (Spells EndsName isName isNamePart)

theorem endsName_mark {c : Char} (cs : List Char) (hc : isNamePart c = false) : EndsName (c :: cs) := by
  intro d hd
  cases hd
  exact hc

theorem Tokens.Spells.ident {name : String} {cs : List Char} {ts : List Token}
    (hname : isName name.toList) (hends : EndsName cs) (hcs : Spells cs ts) :
    Spells (name.toList ++ cs) (.ident name :: ts) := by
  have h := Spells.name hname hends hcs
  rwa [String.ofList_toList] at h

/-! ## Types -/

namespace Ty

/-- All constructors are called by names that an annotation can hold. -/
def Named (t : Ty) : Prop := ∀ name ∈ t.names, isName name.toList

instance (t : Ty) : Decidable t.Named :=
  inferInstanceAs (Decidable (∀ name ∈ t.names, isName name.toList))

theorem Named.head {name : String} {args : List Ty} (h : (con name args).Named) :
    isName name.toList := h name (by simp)

theorem Named.arg {name : String} {args : List Ty} (h : (con name args).Named) {a : Ty}
    (ha : a ∈ args) : a.Named := by
  intro n hn
  apply h n
  rw [names_con]
  exact List.mem_cons_of_mem _ (List.mem_flatMap.mpr ⟨a, ha, hn⟩)

/-- The text of a type spells its tokens, in front of all characters that end a name. -/
def SpellsBefore (t : Ty) : Prop :=
  ∀ {cs : List Char} {ts : List Token}, EndsName cs → Spells cs ts →
    Spells (t.chars ++ cs) (t.tokens ++ ts)

theorem endsName_charsMore (args : List Ty) (cs : List Char) : EndsName (charsMore args ++ cs) := by
  cases args with
  | nil => exact endsName_mark _ (by decide)
  | cons a args => exact endsName_mark _ (by decide)

theorem spells_charsMore {args : List Ty} (hargs : ∀ a ∈ args, a.SpellsBefore) {cs : List Char}
    {ts : List Token} (hcs : Spells cs ts) :
    Spells (charsMore args ++ cs) (tokensMore args ++ ts) := by
  induction args with
  | nil => exact .mark (by decide) (by decide) hcs
  | cons a args ih =>
    rw [List.forall_mem_cons] at hargs
    simp only [charsMore, tokensMore, List.cons_append, List.append_assoc]
    apply Spells.mark (by decide) (by decide)
    apply Spells.gap (by decide)
    exact hargs.1 (endsName_charsMore args cs) (ih hargs.2)

theorem spells_charsArgs {args : List Ty} (hargs : ∀ a ∈ args, a.SpellsBefore) {cs : List Char}
    {ts : List Token} (hends : EndsName cs) (hcs : Spells cs ts) :
    EndsName (charsArgs args ++ cs) ∧ Spells (charsArgs args ++ cs) (tokensArgs args ++ ts) := by
  cases args with
  | nil => exact ⟨hends, hcs⟩
  | cons a args =>
    rw [List.forall_mem_cons] at hargs
    simp only [charsArgs, tokensArgs, List.cons_append, List.append_assoc]
    refine ⟨endsName_mark _ (by decide), .mark (by decide) (by decide) ?_⟩
    exact hargs.1 (endsName_charsMore args cs) (spells_charsMore hargs.2 hcs)

theorem Written.spellsBefore {t : Ty} (h : t.Written) : t.Named → t.SpellsBefore := by
  apply h.induct
  intro name args ih hnamed cs ts hends hcs
  have hargs : ∀ a ∈ args, a.SpellsBefore := fun a ha => (ih a ha).2 (hnamed.arg ha)
  obtain ⟨hmore, hspells⟩ := spells_charsArgs hargs hends hcs
  rw [chars, tokens, List.append_assoc]
  exact .ident hnamed.head hmore hspells

theorem spells_chars {t : Ty} (hwritten : t.Written) (hnamed : t.Named) : Spells t.chars t.tokens := by
  have h := hwritten.spellsBefore hnamed (by simp [EndsName]) .nil
  rwa [List.append_nil, List.append_nil] at h

end Ty

/-! ## Generic types -/

/-- A parameter list spells its parameters, and a type may follow it. -/
theorem Scheme.spells_paramChars {p : String} {ps : List String}
    (hnames : ∀ q ∈ p :: ps, isName q.toList) {cs : List Char} {ts : List Token}
    (hcs : Spells cs ts) : ∃ us, DerivesParams us (p :: ps) ∧
      Spells (p.toList ++ (ps.flatMap (fun q => ',' :: ' ' :: q.toList) ++ '>' :: ' ' :: cs))
        (us ++ .mark '>' :: ts) := by
  induction ps generalizing p with
  | nil =>
    refine ⟨[.ident p], .last p, .ident (hnames p (by simp)) (endsName_mark _ (by decide)) ?_⟩
    apply Spells.mark (by decide) (by decide)
    exact .gap (by decide) hcs
  | cons q ps ih =>
    rw [List.forall_mem_cons] at hnames
    rcases ih hnames.2 with ⟨us, hus, hspells⟩
    refine ⟨.ident p :: .mark ',' :: us, .more p hus, ?_⟩
    refine .ident hnames.1 (endsName_mark _ (by decide)) ?_
    rw [List.flatMap_cons, List.append_assoc]
    apply Spells.mark (by decide) (by decide)
    exact .gap (by decide) hspells

/-- The text of a generic type spells a derivation of it. -/
theorem Scheme.spells_text {g : Scheme} (hwritten : g.body.Written) (hnamed : g.body.Named)
    (hparams : ∀ p ∈ g.params, isName p.toList) (hnodup : g.params.Nodup) :
    ∃ ts, Spells (paramChars g.params ++ g.body.chars) ts ∧ DerivesScheme ts g := by
  obtain ⟨params, body⟩ := g
  have hbody : Spells body.chars body.tokens := Ty.spells_chars hwritten hnamed
  cases params with
  | nil => exact ⟨body.tokens, hbody, .mono hwritten.derives_tokens⟩
  | cons p ps =>
    rcases spells_paramChars hparams hbody with ⟨us, hus, hspells⟩
    refine ⟨.mark '<' :: (us ++ .mark '>' :: body.tokens), ?_,
      .generic hus hnodup hwritten.derives_tokens⟩
    simp only [paramChars, List.cons_append, List.append_assoc, List.nil_append]
    exact .mark (by decide) (by decide) hspells

/-! ## Whole texts -/

/-- Characters that spell brackets, commas and names are the tokens of their text. -/
theorem Tokens.list?_of_spells {cs : List Char} {ts : List Token} (h : Spells cs ts)
    (hmarks : ∀ c, .mark c ∈ ts → c ∈ ['<', ',', '>']) :
    (Tokens.ofSource (.ofBytes (utf8 (String.ofList cs)))).list? = some ts := by
  -- U+0000 and U+FEFF are neither blanks nor in names, so they would be marks.
  have hnul : '\x00' ∉ cs := fun hc => absurd (hmarks _ (h.mark_mem hc rfl rfl)) (by decide)
  have hfeff : '\uFEFF' ∉ cs := fun hc =>
    absurd (hmarks _ (h.mark_mem hc rfl (by decide +kernel))) (by decide)
  have hunmarked : Tokens.unmarked cs = cs := if_neg fun hhead => hfeff (List.mem_of_head? hhead)
  rw [Tokens.list?_ofSource_eq_some_iff]
  exact ⟨cs, ofBytes_eq_map_some_iff.mpr rfl, hnul, hunmarked.symm ▸ h⟩

/-- Reading undoes printing, for types and for generic types. -/
theorem parse_utf8_text :
    (∀ t : Ty, t.Written → t.Named → Ty.parse (.ofBytes (utf8 t.text)) = .ok t) ∧
    (∀ g : Scheme, g.body.Written → g.body.Named → (∀ p ∈ g.params, isName p.toList) →
      g.params.Nodup → Scheme.parse (.ofBytes (utf8 g.text)) = .ok g) := by
  constructor
  · intro t hwritten hnamed
    have hderives := hwritten.derives_tokens
    have hlist := Tokens.list?_of_spells (Ty.spells_chars hwritten hnamed) fun c => hderives.mark_mem
    exact Reader.run_start_eq_ok_iff.mpr ⟨t.tokens, hlist, hderives⟩
  · intro g hwritten hnamed hparams hnodup
    rcases Scheme.spells_text hwritten hnamed hparams hnodup with ⟨ts, hspells, hderives⟩
    have hlist := Tokens.list?_of_spells hspells fun c => hderives.mark_mem
    exact Scheme.parse_eq_ok_iff.mpr ⟨ts, hlist, hderives⟩

/-- A nested type with a name outside ASCII, alone and under its parameters. -/
theorem parse_utf8_text_map :
    let t : Ty := .con "Map" [.con "K" [], .con "List" [.con "Größe" []]]
    t.Written ∧ t.Named ∧ ["K", "Größe"].Nodup ∧
      Ty.parse (.ofBytes (utf8 "Map<K, List<Größe>>")) = .ok t ∧
      Scheme.parse (.ofBytes (utf8 "<K, Größe> Map<K, List<Größe>>")) = .ok ⟨["K", "Größe"], t⟩ := by
  intro t
  have hwritten : t.Written := by
    refine .con ?_
    simp only [List.forall_mem_cons]
    exact ⟨.con (by simp), .con (by simp [Ty.Written.con]), by simp⟩
  have hnamed : t.Named := by decide +kernel
  have htext : t.text = "Map<K, List<Größe>>" := by decide +kernel
  refine ⟨hwritten, hnamed, by decide, ?_, ?_⟩
  · exact htext ▸ parse_utf8_text.1 t hwritten hnamed
  · exact parse_utf8_text.2 ⟨["K", "Größe"], t⟩ hwritten hnamed (by decide +kernel) (by decide)

end Polytype
