import Polytype.Proofs.Text.Encoding
import Polytype.Proofs.Ty.Reading
import Polytype.Proofs.Ty.Spelling

/-!
# The grammar of annotations

    Type   ::= name | name '<' Type (',' Type)* '>'
    Scheme ::= ['<' name (',' name)* '>'] Type        with distinct names

`Derives` and `DerivesScheme` are these rules over tokens, each with the type that it makes. The reader
accepts exactly what they derive. Its state always spells the tokens read so far (`step_tokens`), so
what it accepts is the spelling of its result; and from any state that wants a type it gets through the
tokens of a derivation with the derived type in hand (`foldlM_step_of_derives`).
-/

namespace Polytype

open Polytype.Text

/-- Bytes yield tokens exactly if they encode a text without U+0000 that spells them. -/
theorem Tokens.exists_list?_ofBytes_iff {bytes : List UInt8} {P : List Token → Prop} :
    (∃ ts, (Tokens.ofSource (.ofBytes bytes)).list? = some ts ∧ P ts) ↔
      ∃ text : String, bytes = utf8 text ∧ '\x00' ∉ text.toList ∧
        ∃ ts, Tokens.Spells (Tokens.unmarked text.toList) ts ∧ P ts := by
  simp only [Tokens.list?_ofSource_eq_some_iff]
  constructor
  · rintro ⟨ts, ⟨cs, hcs, hnul, hspells⟩, hP⟩
    refine ⟨String.ofList cs, ofBytes_eq_map_some_iff.mp hcs, ?_, ts, ?_, hP⟩
    · rwa [String.toList_ofList]
    · rwa [String.toList_ofList]
  · rintro ⟨text, htext, hnul, ts, hspells, hP⟩
    refine ⟨ts, ⟨text.toList, ?_, hnul, hspells⟩, hP⟩
    rw [htext, ofBytes_utf8]
    rfl

/-! ## Rules -/

mutual

/-- The tokens of a type, and the type. -/
inductive Derives : List Token → Ty → Prop
  | name (name : String) : Derives [.ident name] (.con name [])
  | applied (name : String) {ts : List Token} {args : List Ty} : DerivesArgs ts args →
      Derives (.ident name :: .mark '<' :: (ts ++ [.mark '>'])) (.con name args)

/-- The tokens between the brackets of a type, and its arguments. -/
inductive DerivesArgs : List Token → List Ty → Prop
  | last {ts : List Token} {t : Ty} : Derives ts t → DerivesArgs ts [t]
  | more {ts us : List Token} {t : Ty} {args : List Ty} : Derives ts t → DerivesArgs us args →
      DerivesArgs (ts ++ .mark ',' :: us) (t :: args)

end

/-- The tokens between the brackets of a parameter list, and the parameters. -/
inductive DerivesParams : List Token → List String → Prop
  | last (name : String) : DerivesParams [.ident name] [name]
  | more (name : String) {ts : List Token} {names : List String} : DerivesParams ts names →
      DerivesParams (.ident name :: .mark ',' :: ts) (name :: names)

/-- The tokens of a generic type, and the generic type. -/
inductive DerivesScheme : List Token → Scheme → Prop
  | mono {ts : List Token} {t : Ty} : Derives ts t → DerivesScheme ts (.mono t)
  | generic {ps ts : List Token} {params : List String} {t : Ty} : DerivesParams ps params →
      params.Nodup → Derives ts t → DerivesScheme (.mark '<' :: (ps ++ .mark '>' :: ts)) ⟨params, t⟩

theorem DerivesArgs.ne_nil {ts : List Token} {args : List Ty} (h : DerivesArgs ts args) :
    args ≠ [] := by
  cases h <;> simp

theorem Derives.head_eq {ts : List Token} {t : Ty} (h : Derives ts t) :
    ∃ name rest, ts = .ident name :: rest := by
  cases h with
  | name name => exact ⟨name, [], rfl⟩
  | applied name hargs => exact ⟨name, _, rfl⟩

mutual

/-- A derivation holds no marks but brackets and commas. -/
theorem Derives.mark_mem {c : Char} : ∀ {ts : List Token} {t : Ty}, Derives ts t →
    .mark c ∈ ts → c ∈ ['<', ',', '>']
  | _, _, .name name, hc => by simp at hc
  | _, _, .applied name hargs, hc => by
    simp only [List.mem_cons, List.mem_append, reduceCtorEq, Token.mark.injEq, List.not_mem_nil,
      or_false, false_or] at hc
    rcases hc with rfl | hc | rfl
    · simp
    · exact hargs.mark_mem hc
    · simp

theorem DerivesArgs.mark_mem {c : Char} : ∀ {ts : List Token} {args : List Ty}, DerivesArgs ts args →
    .mark c ∈ ts → c ∈ ['<', ',', '>']
  | _, _, .last ht, hc => ht.mark_mem hc
  | _, _, .more ht hargs, hc => by
    simp only [List.mem_append, List.mem_cons, Token.mark.injEq] at hc
    rcases hc with hc | rfl | hc
    · exact ht.mark_mem hc
    · simp
    · exact hargs.mark_mem hc

end

theorem DerivesParams.mark_mem {c : Char} {ts : List Token} {names : List String}
    (h : DerivesParams ts names) (hc : .mark c ∈ ts) : c ∈ ['<', ',', '>'] := by
  induction h with
  | last name => simp at hc
  | more name _ ih =>
    simp only [List.mem_cons, reduceCtorEq, Token.mark.injEq, false_or] at hc
    rcases hc with rfl | hc
    · simp
    · exact ih hc

theorem DerivesScheme.mark_mem {c : Char} {ts : List Token} {g : Scheme}
    (h : DerivesScheme ts g) (hc : .mark c ∈ ts) : c ∈ ['<', ',', '>'] := by
  cases h with
  | mono ht => exact ht.mark_mem hc
  | generic hps _ ht =>
    simp only [List.mem_cons, List.mem_append, Token.mark.injEq] at hc
    rcases hc with rfl | hc | rfl | hc
    · simp
    · exact hps.mark_mem hc
    · simp
    · exact ht.mark_mem hc

/-! ## The tokens of a type -/

namespace Ty

mutual

/-- The tokens that spell a type. -/
def tokens : Ty → List Token
  | absent => []
  | var _ => []
  | con name args => .ident name :: tokensArgs args

/-- The tokens of an argument list; none when it is empty. -/
def tokensArgs : List Ty → List Token
  | [] => []
  | a :: as => .mark '<' :: (tokens a ++ tokensMore as)

/-- The arguments after the first, and the closing bracket. -/
def tokensMore : List Ty → List Token
  | [] => [.mark '>']
  | a :: as => .mark ',' :: (tokens a ++ tokensMore as)

end

/-- Arguments that another one follows. -/
def tokensOpen (args : List Ty) : List Token := args.flatMap fun a => a.tokens ++ [.mark ',']

@[simp] theorem tokensOpen_nil : tokensOpen [] = [] := rfl

@[simp] theorem tokensOpen_append (as bs : List Ty) :
    tokensOpen (as ++ bs) = tokensOpen as ++ tokensOpen bs := List.flatMap_append

@[simp] theorem tokensOpen_singleton (a : Ty) : tokensOpen [a] = a.tokens ++ [.mark ','] := by
  simp [tokensOpen]

theorem tokensMore_append (args : List Ty) (t : Ty) :
    tokensMore (args ++ [t]) = .mark ',' :: (tokensOpen args ++ (t.tokens ++ [.mark '>'])) := by
  induction args with
  | nil => simp [tokensMore]
  | cons a args ih => simp [tokensMore, ih, tokensOpen]

theorem tokensArgs_append (args : List Ty) (t : Ty) :
    tokensArgs (args ++ [t]) = .mark '<' :: (tokensOpen args ++ (t.tokens ++ [.mark '>'])) := by
  cases args with
  | nil => simp [tokensArgs, tokensMore]
  | cons a args => simp [tokensArgs, tokensMore_append, tokensOpen]

/-- The tokens between the brackets derive the arguments if those of each argument derive it. -/
theorem derivesArgs_tokens {a : Ty} {args : List Ty} (ha : Derives a.tokens a)
    (hargs : ∀ b ∈ args, Derives b.tokens b) :
    ∃ ts, a.tokens ++ tokensMore args = ts ++ [.mark '>'] ∧ DerivesArgs ts (a :: args) := by
  induction args generalizing a with
  | nil => exact ⟨a.tokens, by simp [tokensMore], .last ha⟩
  | cons b args ih =>
    rw [List.forall_mem_cons] at hargs
    rcases ih hargs.1 hargs.2 with ⟨ts, hts, hmore⟩
    refine ⟨a.tokens ++ .mark ',' :: ts, ?_, .more ha hmore⟩
    rw [tokensMore, hts]
    simp

/-- The tokens of a written type derive it. -/
theorem Written.derives_tokens {t : Ty} (h : t.Written) : Derives t.tokens t := by
  apply h.induct
  intro name args ih
  cases args with
  | nil =>
    rw [tokens, tokensArgs]
    exact .name name
  | cons a args =>
    rw [List.forall_mem_cons] at ih
    rcases derivesArgs_tokens ih.1.2 fun b hb => (ih.2 b hb).2 with ⟨ts, hts, hargs⟩
    rw [tokens, tokensArgs, hts]
    exact .applied name hargs

end Ty

/-! ## The reader gets through a derivation -/

namespace Reader

/-- What the reader has in hand after a type. -/
def held : Ty → Phase
  | .con name [] => .named name
  | t => .closed t

theorem held_con {name : String} {args : List Ty} (h : args ≠ []) :
    held (.con name args) = .closed (.con name args) := by
  cases args with
  | nil => exact absurd rfl h
  | cons a args => rfl

theorem step_held (t : Ty) (frames : List Frame) {c : Char} (hc : c ≠ '<') :
    step ⟨held t, frames⟩ (.mark c) = settle t frames c := by
  match t with
  | .con name [] => simp [held, step, hc]
  | .con name (a :: args) => rfl
  | .absent => rfl
  | .var v => rfl

theorem result?_held (name : String) (args : List Ty) :
    result? ⟨held (.con name args), []⟩ = some (.con name args) := by
  cases args <;> rfl

mutual

theorem foldlM_step_of_derives : ∀ {ts : List Token} {t : Ty}, Derives ts t →
    ∀ frames, ts.foldlM step ⟨.want, frames⟩ = some ⟨held t, frames⟩
  | _, _, .name name, frames => rfl
  | _, _, .applied name hargs, frames => by
    rw [held_con hargs.ne_nil]
    exact foldlM_step_of_derivesArgs hargs name [] frames

theorem foldlM_step_of_derivesArgs : ∀ {ts : List Token} {args : List Ty}, DerivesArgs ts args →
    ∀ name before frames, (ts ++ [Token.mark '>']).foldlM step ⟨.want, ⟨name, before⟩ :: frames⟩ =
      some ⟨.closed (.con name (before.reverse ++ args)), frames⟩
  | _, _, .last (t := t) ht, name, before, frames => by
    rw [List.foldlM_append, foldlM_step_of_derives ht]
    show step ⟨held t, _⟩ (.mark '>') >>= pure = _
    rw [step_held t _ (by decide)]
    simp [settle]
  | _, _, .more (t := t) ht hmore, name, before, frames => by
    -- The comma puts the argument in front of those that the frame already has.
    rw [List.append_assoc, List.foldlM_append, foldlM_step_of_derives ht]
    show step ⟨held t, _⟩ (.mark ',') >>= _ = _
    rw [step_held t _ (by decide)]
    have := foldlM_step_of_derivesArgs hmore name (t :: before) frames
    simpa [settle] using this

end

end Reader

/-! ## The reader spells what it has read -/

/-- The tokens of a constructor whose arguments are open. -/
def Frame.tokens (f : Frame) : List Token :=
  .ident f.name :: .mark '<' :: Ty.tokensOpen f.args.reverse

/-- The tokens of what is in hand. -/
def Phase.tokens : Phase → List Token
  | .want => []
  | .named name => [.ident name]
  | .closed t => t.tokens

namespace Reader

/-- The tokens read so far. -/
def tokens (r : Reader) : List Token := r.frames.reverse.flatMap Frame.tokens ++ r.phase.tokens

theorem settle_tokens {t : Ty} {frames : List Frame} {c : Char} {r : Reader}
    (h : settle t frames c = some r) :
    r.tokens = frames.reverse.flatMap Frame.tokens ++ t.tokens ++ [.mark c] := by
  cases frames with
  | nil => cases h
  | cons frame outer =>
    rw [settle] at h
    split_ifs at h with hcomma hclose
    · cases h
      simp [tokens, Frame.tokens, Phase.tokens, hcomma]
    · cases h
      simp [tokens, Frame.tokens, Phase.tokens, hclose, Ty.tokens, Ty.tokensArgs_append]

/-- A step adds its token to what the state spells. -/
theorem step_tokens {r r' : Reader} {t : Token} (h : r.step t = some r') :
    r'.tokens = r.tokens ++ [t] := by
  obtain ⟨phase, frames⟩ := r
  cases phase with
  | want =>
    cases t with
    | ident name =>
      cases h
      simp [tokens, Phase.tokens]
    | mark c => cases h
  | named name =>
    cases t with
    | ident other => cases h
    | mark c =>
      simp only [step] at h
      split_ifs at h with hopen
      · cases h
        simp [tokens, Phase.tokens, Frame.tokens, hopen]
      · rw [settle_tokens h]
        simp [tokens, Phase.tokens, Ty.tokens, Ty.tokensArgs]
  | closed u =>
    cases t with
    | ident name => cases h
    | mark c => exact settle_tokens h

theorem foldlM_step_tokens {r r' : Reader} {ts : List Token} (h : ts.foldlM step r = some r') :
    r'.tokens = r.tokens ++ ts := by
  induction ts generalizing r with
  | nil =>
    cases h
    simp
  | cons t ts ih =>
    rw [List.foldlM_cons, Option.bind_eq_bind, Option.bind_eq_some_iff] at h
    rcases h with ⟨s, hstep, hrest⟩
    rw [ih hrest, step_tokens hstep]
    simp

theorem result?_tokens {r : Reader} {t : Ty} (h : r.result? = some t) : r.tokens = t.tokens := by
  obtain ⟨phase, frames⟩ := r
  cases frames with
  | cons f fs => cases phase <;> cases h
  | nil =>
    cases phase with
    | want => cases h
    | named name =>
      cases h
      simp [tokens, Phase.tokens, Ty.tokens, Ty.tokensArgs]
    | closed u =>
      cases h
      simp [tokens, Phase.tokens]

/-! ## What the reader accepts -/

/-- A run that ends well has met no fault, and stepped through all tokens to a result. -/
theorem run_eq_ok_iff {r : Reader} {source : Tokens} {t : Ty} :
    r.run source = .ok t ↔
      ∃ ts, source.list? = some ts ∧ (ts.foldlM step r).bind result? = some t := by
  induction source generalizing r with
  | token tok column rest ih =>
    rw [run]
    cases hstep : r.step tok with
    | none => simp [Tokens.list?, hstep]
    | some r' => simp [Tokens.list?, hstep, ih]
  | finish column =>
    rw [run]
    cases hresult : r.result? <;> simp [Tokens.list?, hresult]
  | fault cause column => simp [run, Tokens.list?]

theorem run_start_eq_ok_iff {source : Tokens} {t : Ty} :
    start.run source = .ok t ↔ ∃ ts, source.list? = some ts ∧ Derives ts t := by
  constructor
  · intro h
    -- The state spells what was read, and a result leaves nothing else to spell.
    have hwritten : t.Written := run_written clean_start h
    rcases run_eq_ok_iff.mp h with ⟨ts, hlist, hts⟩
    rw [Option.bind_eq_some_iff] at hts
    rcases hts with ⟨r, hfold, hresult⟩
    have hspelled : t.tokens = ts := by
      rw [← result?_tokens hresult, foldlM_step_tokens hfold]
      rfl
    exact ⟨ts, hlist, hspelled ▸ hwritten.derives_tokens⟩
  · rintro ⟨ts, hlist, hderives⟩
    refine run_eq_ok_iff.mpr ⟨ts, hlist, ?_⟩
    rw [start, foldlM_step_of_derives hderives, Option.bind_some]
    cases hderives with
    | name name => rfl
    | applied name hargs => exact result?_held name _

end Reader

namespace Scheme

theorem map_run_eq_ok_iff {source : Tokens} {make : Ty → Scheme} {g : Scheme} :
    (Reader.start.run source).map make = .ok g ↔
      ∃ ts t, source.list? = some ts ∧ Derives ts t ∧ g = make t := by
  constructor
  · intro h
    cases hrun : Reader.start.run source with
    | error e =>
      rw [hrun] at h
      cases h
    | ok t =>
      rw [hrun] at h
      cases h
      rcases Reader.run_start_eq_ok_iff.mp hrun with ⟨ts, hlist, hderives⟩
      exact ⟨ts, t, hlist, hderives, rfl⟩
  · rintro ⟨ts, t, hlist, hderives, hg⟩
    rw [Reader.run_start_eq_ok_iff.mpr ⟨ts, hlist, hderives⟩, hg]
    rfl

/-- A parameter list is read to its closing bracket if no parameter is listed twice. -/
theorem parseParams_of_derivesParams {ps : List Token} {names : List String}
    (hps : DerivesParams ps names) {before : List String} (hnodup : (before ++ names).Nodup)
    {source : Tokens} {ts : List Token} (hlist : source.list? = some (ps ++ .mark '>' :: ts))
    {t : Ty} (ht : Derives ts t) : parseParams before source = .ok ⟨before ++ names, t⟩ := by
  induction hps generalizing before source with
  | last name =>
    have hnew := (List.nodup_cons.mp (List.nodup_middle.mp hnodup)).1
    rw [List.append_nil] at hnew
    rcases Tokens.list?_eq_some_cons.mp hlist with ⟨column, source, rfl, hsource⟩
    rcases Tokens.list?_eq_some_cons.mp hsource with ⟨column', rest, rfl, hrest⟩
    simp only [parseParams, List.contains_iff_mem, if_neg hnew]
    exact map_run_eq_ok_iff.mpr ⟨ts, t, hrest, ht, rfl⟩
  | @more name ps names hps ih =>
    have hnew := (List.nodup_cons.mp (List.nodup_middle.mp hnodup)).1
    rw [List.mem_append, not_or] at hnew
    rcases Tokens.list?_eq_some_cons.mp hlist with ⟨column, source, rfl, hsource⟩
    rcases Tokens.list?_eq_some_cons.mp hsource with ⟨column', rest, rfl, hrest⟩
    rw [List.append_cons] at hnodup ⊢
    simp only [parseParams, List.contains_iff_mem, if_neg hnew.1, if_true]
    exact ih hnodup hrest

theorem parseParams_eq_ok_iff {before : List String} {source : Tokens} {g : Scheme}
    (hbefore : before.Nodup) :
    parseParams before source = .ok g ↔ ∃ ps ts names t,
      source.list? = some (ps ++ .mark '>' :: ts) ∧ DerivesParams ps names ∧
        (before ++ names).Nodup ∧ Derives ts t ∧ g = ⟨before ++ names, t⟩ := by
  constructor
  · intro h
    fun_induction parseParams before source with
    | case2 before name column column' rest hnew ih =>
      rw [List.contains_iff_mem] at hnew
      rw [← List.concat_eq_append] at ih h
      rcases ih ((List.nodup_concat _ _).mpr ⟨hnew, hbefore⟩) h with
        ⟨ps, ts, names, t, hlist, hps, hnames, hts, hg⟩
      refine ⟨.ident name :: .mark ',' :: ps, ts, name :: names, t, ?_, .more name hps, ?_, hts, ?_⟩
      · simp [Tokens.list?, hlist]
      · simpa using hnames
      · simpa using hg
    | case3 before name column column' rest hnew hclose =>
      rcases map_run_eq_ok_iff.mp h with ⟨ts, t, hlist, hts, hg⟩
      rw [List.contains_iff_mem] at hnew
      refine ⟨[.ident name], ts, [name], t, ?_, .last name, ?_, hts, hg⟩
      · simp [Tokens.list?, hlist]
      · rw [← List.concat_eq_append]
        exact (List.nodup_concat _ _).mpr ⟨hnew, hbefore⟩
    | _ => cases h
  · rintro ⟨ps, ts, names, t, hlist, hps, hnodup, hts, hg⟩
    rw [hg]
    exact parseParams_of_derivesParams hps hnodup hlist hts

theorem parse_eq_ok_iff {source : Source} {g : Scheme} :
    Scheme.parse source = .ok g ↔
      ∃ ts, (Tokens.ofSource source).list? = some ts ∧ DerivesScheme ts g := by
  rw [Scheme.parse]
  split
  · rename_i column rest hsource
    rw [hsource, parseParams_eq_ok_iff List.nodup_nil]
    constructor
    · rintro ⟨ps, ts, names, t, hlist, hps, hnodup, hts, hg⟩
      refine ⟨.mark '<' :: (ps ++ .mark '>' :: ts), by simp [Tokens.list?, hlist], ?_⟩
      rw [hg]
      exact .generic hps hnodup hts
    · rintro ⟨ts, hlist, hderives⟩
      cases hderives with
      | mono ht =>
        -- A type starts with a name, so the bracket opens a parameter list.
        rcases ht.head_eq with ⟨name, us, rfl⟩
        simp [Tokens.list?] at hlist
      | generic hps hnodup ht =>
        simp [Tokens.list?] at hlist
        exact ⟨_, _, _, _, hlist, hps, hnodup, ht, rfl⟩
  · rename_i hfirst
    rw [map_run_eq_ok_iff]
    constructor
    · rintro ⟨ts, t, hlist, hts, hg⟩
      rw [hg]
      exact ⟨ts, hlist, .mono hts⟩
    · rintro ⟨ts, hlist, hderives⟩
      cases hderives with
      | mono ht => exact ⟨ts, _, hlist, ht, rfl⟩
      | generic hps hnodup ht =>
        rcases Tokens.list?_eq_some_cons.mp hlist with ⟨column, rest, hsource, -⟩
        exact absurd hsource (hfirst column rest)

end Scheme

/-- The reader of annotations accepts exactly the grammar. Bytes are a type if and only if they encode
a text without U+0000 whose tokens derive it, apart from a U+FEFF at its start; and likewise for generic
types. -/
theorem parse_ofBytes_iff_derives :
    (∀ (bytes : List UInt8) (t : Ty), Ty.parse (.ofBytes bytes) = .ok t ↔
      ∃ text : String, bytes = utf8 text ∧ '\x00' ∉ text.toList ∧
        ∃ ts, Tokens.Spells (Tokens.unmarked text.toList) ts ∧ Derives ts t) ∧
    (∀ (bytes : List UInt8) (g : Scheme), Scheme.parse (.ofBytes bytes) = .ok g ↔
      ∃ text : String, bytes = utf8 text ∧ '\x00' ∉ text.toList ∧
        ∃ ts, Tokens.Spells (Tokens.unmarked text.toList) ts ∧ DerivesScheme ts g) := by
  constructor
  · intro bytes t
    rw [Ty.parse, Reader.run_start_eq_ok_iff, Tokens.exists_list?_ofBytes_iff]
  · intro bytes g
    rw [Scheme.parse_eq_ok_iff, Tokens.exists_list?_ofBytes_iff]

end Polytype
