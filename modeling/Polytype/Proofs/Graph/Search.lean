import Mathlib
import Polytype.Graph.Components
import Polytype.Proofs.Fault

/-!
# The search for components

`Search.Inv` is what holds of a search whenever it turns to a vertex. It speaks of the path of calls under
way: every vertex on the stack leads to one of the path that was met no later, and leads to whatever was met
after it and is still on the stack. `Visited` is what a call adds: vertices above the stack it found, whose
edges into that stack are no lower than the low link it leaves.

If this low link is the number of the vertex itself, then no edge leads from the vertices above it into the
rest of the stack (`Scanned.closed`). They all lead to a vertex of the path, and it can only be the root
itself (`Scanned.reaches_root`): they are a class.
-/

namespace Polytype

namespace Graph

/-- The vertices that a vertex has an edge to. -/
def next (g : Graph) (v : Nat) : List Nat := g.getD v []

/-- All edges lead to the first vertices. -/
def Within (g : Graph) (n : Nat) : Prop := ∀ v, ∀ w ∈ g.next v, w < n

/-- There is a path from one vertex to another. -/
abbrev Reaches (g : Graph) : Nat → Nat → Prop := Relation.ReflTransGen fun u w => w ∈ g.next u

theorem Reaches.mem_of_closed {g : Graph} {P : Nat → Prop} (hP : ∀ v, P v → ∀ w ∈ g.next v, P w)
    {v w : Nat} (h : g.Reaches v w) (hv : P v) : P w := by
  induction h with
  | refl => exact hv
  | tail _ hstep ih => exact hP _ ih _ hstep

/-- Classes of mutual reachability, each after those that it leads to. -/
structure Classified (g : Graph) (classes : List (List Nat)) : Prop where
  nodup : classes.flatten.Nodup
  ascending : ∀ c ∈ classes, c ≠ [] ∧ c.Pairwise (· < ·)
  strong : ∀ c ∈ classes, ∀ v ∈ c, ∀ w ∈ c, g.Reaches v w
  before : ∀ before c after, classes = before ++ c :: after → ∀ v ∈ c, ∀ w ∈ g.next v,
    ∃ d ∈ before ++ [c], w ∈ d

theorem Classified.nil (g : Graph) : g.Classified [] :=
  ⟨by simp, by simp, by simp, by simp⟩

/-- Nothing leads out of the classes. -/
theorem Classified.closed {g : Graph} {classes : List (List Nat)} (h : g.Classified classes) {v w : Nat}
    (hv : v ∈ classes.flatten) (hw : w ∈ g.next v) : w ∈ classes.flatten := by
  obtain ⟨c, hc, hvc⟩ := List.mem_flatten.mp hv
  obtain ⟨before, after, rfl⟩ := List.append_of_mem hc
  obtain ⟨d, hd, hwd⟩ := h.before before c after rfl v hvc w hw
  refine List.mem_flatten.mpr ⟨d, ?_, hwd⟩
  rw [List.append_cons]
  exact List.mem_append_left _ hd

theorem Classified.concat {g : Graph} {classes : List (List Nat)} {c : List Nat} (h : g.Classified classes)
    (hne : c ≠ []) (hc : c.Pairwise (· < ·)) (hapart : ∀ v ∈ c, v ∉ classes.flatten)
    (hstrong : ∀ v ∈ c, ∀ w ∈ c, g.Reaches v w)
    (hnext : ∀ v ∈ c, ∀ w ∈ g.next v, w ∈ classes.flatten ∨ w ∈ c) :
    g.Classified (classes ++ [c]) := by
  constructor
  case nodup =>
    rw [List.flatten_concat, List.nodup_append]
    refine ⟨h.nodup, hc.imp fun hab => Nat.ne_of_lt hab, ?_⟩
    rintro v hv w hw rfl
    exact hapart v hw hv
  case ascending =>
    intro d hd
    rcases List.mem_append.mp hd with hd | hd
    · exact h.ascending d hd
    · rw [List.mem_singleton.mp hd]
      exact ⟨hne, hc⟩
  case strong =>
    intro d hd
    rcases List.mem_append.mp hd with hd | hd
    · exact h.strong d hd
    · rw [List.mem_singleton.mp hd]
      exact hstrong
  case before =>
    intro before d after hsplit v hv w hw
    rcases List.eq_nil_or_concat after with rfl | ⟨after, e, rfl⟩
    · obtain ⟨rfl, hcd⟩ := List.append_inj' hsplit rfl
      obtain rfl := List.singleton_inj.mp hcd
      rcases hnext v hv w hw with hold | hnew
      · obtain ⟨e, he, hwe⟩ := List.mem_flatten.mp hold
        exact ⟨e, List.mem_append_left _ he, hwe⟩
      · exact ⟨c, by simp, hnew⟩
    · rw [List.concat_eq_append, ← List.cons_append, ← List.append_assoc] at hsplit
      have hinit : classes = before ++ d :: after := List.append_inj_left' hsplit rfl
      exact h.before before d after hinit v hv w hw

namespace Search

/-- The number of a vertex; zero if it was not met. -/
def number (s : Search) (v : Nat) : Nat := s.index.getD v 0

def low (s : Search) (v : Nat) : Nat := s.lowLink.getD v 0

def held (s : Search) (v : Nat) : Bool := s.onStack.getD v false

/-- The arrays have a place for each vertex. -/
structure Sized (s : Search) (n : Nat) : Prop where
  index : s.index.size = n
  lowLink : s.lowLink.size = n
  onStack : s.onStack.size = n

theorem Sized.lt_of_number {s : Search} {n v : Nat} (h : s.Sized n) (hv : s.number v ≠ 0) : v < n := by
  by_contra hn
  refine hv ?_
  rw [number, Array.getD_eq_getD_getElem?, Array.getElem?_eq_none (by rw [h.index]; omega), Option.getD_none]

theorem ne_of_number {s : Search} {u v : Nat} (hu : s.number u ≠ 0) (hv : s.number v = 0) : u ≠ v := by
  rintro rfl
  exact hu hv

/-! ## Steps -/

/-- What `enter` changes. -/
structure Entered (n v : Nat) (s s' : Search) : Prop where
  sized : s'.Sized n
  count : s'.count = s.count + 1
  number : s'.number = Function.update s.number v (s.count + 1)
  low : s'.low = Function.update s.low v (s.count + 1)
  held : s'.held = Function.update s.held v true
  stack : s'.stack = v :: s.stack
  classes : s'.classes = s.classes

theorem enter_ok {s : Search} {n v : Nat} (h : s.Sized n) (hv : v < n) :
    ∃ s', s.enter v = .ok s' ∧ Entered n v s s' := by
  have hindex : v < s.index.size := by rwa [h.index]
  have hlow : v < s.lowLink.size := by rwa [h.lowLink]
  have honStack : v < s.onStack.size := by rwa [h.onStack]
  rw [enter, writeAt_of_lt hindex, writeAt_of_lt hlow, writeAt_of_lt honStack]
  refine ⟨_, rfl, ?_, rfl, getD_setIfInBounds hindex .., getD_setIfInBounds hlow ..,
    getD_setIfInBounds honStack .., rfl, rfl⟩
  exact ⟨by simp [h.index], by simp [h.lowLink], by simp [h.onStack]⟩

/-- What `lower` changes. -/
structure Lowered (n v bound : Nat) (s s' : Search) : Prop where
  sized : s'.Sized n
  count : s'.count = s.count
  number : s'.number = s.number
  low : s'.low = Function.update s.low v (min (s.low v) bound)
  held : s'.held = s.held
  stack : s'.stack = s.stack
  classes : s'.classes = s.classes

theorem lower_ok {s : Search} {n v : Nat} (h : s.Sized n) (hv : v < n) (bound : Nat) :
    ∃ s', s.lower v bound = .ok s' ∧ Lowered n v bound s s' := by
  have hlow : v < s.lowLink.size := by rwa [h.lowLink]
  have heq : s.lower v bound =
      .ok (if bound < s.low v then { s with lowLink := s.lowLink.setIfInBounds v bound } else s) := by
    rw [lower, readAt_of_lt hlow 0, writeAt_of_lt hlow]
    change (if bound < s.low v then _ else _) = _
    split <;> rfl
  refine ⟨_, heq, ?_⟩
  split
  case isTrue hlt =>
    refine ⟨⟨h.index, ?_, h.onStack⟩, rfl, rfl, ?_, rfl, rfl, rfl⟩
    · simp [h.lowLink]
    · rw [min_eq_right hlt.le]
      exact getD_setIfInBounds hlow ..
  case isFalse hle =>
    refine ⟨h, rfl, rfl, ?_, rfl, rfl, rfl⟩
    rw [min_eq_left (by omega), Function.update_eq_self]

/-- The vertices down to the given one come off the stack, and lose their marks. -/
theorem popTo_ok {n v : Nat} {above : List Nat} {onStack : Array Bool} (hsize : onStack.size = n)
    (hlt : ∀ w ∈ above ++ [v], w < n) (hv : v ∉ above) (base : List Nat) :
    ∃ onStack', popTo v (above ++ v :: base) onStack = .ok (above ++ [v], base, onStack') ∧
      onStack'.size = n ∧
      ∀ w, onStack'.getD w false = true ↔ w ∉ above ++ [v] ∧ onStack.getD w false = true := by
  induction above generalizing onStack with
  | nil =>
    have hv : v < onStack.size := by rw [hsize]; exact hlt v (by simp)
    refine ⟨onStack.setIfInBounds v false, ?_, by simp [hsize], fun w => ?_⟩
    · rw [List.nil_append, popTo, writeAt_of_lt hv]
      exact if_pos rfl
    · have := congrFun (getD_setIfInBounds hv false false) w
      simp only [Function.update_apply] at this
      simp [this]
  | cons u above ih =>
    rw [List.mem_cons, not_or] at hv
    rw [List.cons_append, List.forall_mem_cons] at hlt
    have hu : u < onStack.size := by rw [hsize]; exact hlt.1
    obtain ⟨onStack', hpop, hsize', hheld⟩ := ih
      ((Array.size_setIfInBounds (i := u) (a := false)).trans hsize) hlt.2 hv.2
    refine ⟨onStack', ?_, hsize', fun w => ?_⟩
    · rw [List.cons_append, popTo, writeAt_of_lt hu]
      refine (if_neg (Ne.symm hv.1)).trans ?_
      rw [hpop]
      rfl
    · have := congrFun (getD_setIfInBounds hu false false) w
      simp only [Function.update_apply] at this
      rw [hheld w, this, List.cons_append, List.mem_cons, not_or]
      split_ifs <;> simp_all

/-! ## What holds of every search -/

/-- What holds of a search under a path of calls. -/
structure Inv (g : Graph) (path : List Nat) (s : Search) : Prop where
  sized : s.Sized g.size
  number_le : ∀ v, s.number v ≤ s.count
  descending : s.stack.Pairwise fun v w => s.number w < s.number v
  held_iff : ∀ v, s.held v = true ↔ v ∈ s.stack
  met_iff : ∀ v, s.number v ≠ 0 ↔ v ∈ s.stack ∨ v ∈ s.classes.toList.flatten
  apart : ∀ v ∈ s.stack, v ∉ s.classes.toList.flatten
  path_subset : ∀ v ∈ path, v ∈ s.stack
  /-- Only on the path are edges left to follow. -/
  followed : ∀ v, s.number v ≠ 0 → v ∉ path → ∀ w ∈ g.next v, s.number w ≠ 0
  forth : ∀ v ∈ s.stack, ∀ w ∈ s.stack, s.number v ≤ s.number w → g.Reaches v w
  back : ∀ w ∈ s.stack, ∃ v ∈ path, s.number v ≤ s.number w ∧ g.Reaches w v
  classified : g.Classified s.classes.toList

theorem Inv.start (g : Graph) : Inv g [] (Search.start g.size) := by
  have hnumber : ∀ v, (Search.start g.size).number v = 0 := fun v => by
    rw [Search.number, Search.start, Array.getD_eq_getD_getElem?, Array.getElem?_replicate]
    split <;> rfl
  have hheld : ∀ v, (Search.start g.size).held v = false := fun v => by
    rw [Search.held, Search.start, Array.getD_eq_getD_getElem?, Array.getElem?_replicate]
    split <;> rfl
  constructor
  case sized => exact ⟨by simp [Search.start], by simp [Search.start], by simp [Search.start]⟩
  case number_le => exact fun v => by rw [hnumber]; exact Nat.zero_le _
  case held_iff => exact fun v => by rw [hheld]; simp [Search.start]
  case met_iff => exact fun v => by rw [hnumber]; simp [Search.start]
  case followed => exact fun v hv => absurd (hnumber v) hv
  case classified => exact .nil g
  all_goals simp [Search.start]

variable {g : Graph} {path : List Nat} {s : Search}

theorem Inv.met (h : Inv g path s) {v : Nat} (hv : v ∈ s.stack) : s.number v ≠ 0 :=
  (h.met_iff v).mpr (.inl hv)

theorem Inv.lt_size (h : Inv g path s) {v : Nat} (hv : v ∈ s.stack) : v < g.size :=
  h.sized.lt_of_number (h.met hv)

/-- A vertex that was not met joins the stack and the path; some of the path leads to it. -/
theorem Inv.entered (h : Inv g path s) {v : Nat} (hv : s.number v = 0)
    (hpath : ∀ u ∈ path, g.Reaches u v) {s' : Search} (he : Entered g.size v s s') :
    Inv g (v :: path) s' := by
  have hnew : s'.number v = s.count + 1 := by rw [he.number, Function.update_self]
  have hold : ∀ {w}, w ≠ v → s'.number w = s.number w := fun hw => by
    rw [he.number, Function.update_of_ne hw]
  have hstack : ∀ {w}, w ∈ s.stack → s'.number w = s.number w := fun hw => hold (ne_of_number (h.met hw) hv)
  have hvstack : v ∉ s.stack := fun hvs => h.met hvs hv
  -- whatever is on the stack leads to the path, and so to the new vertex
  have hforth : ∀ w ∈ s.stack, g.Reaches w v := fun w hw =>
    let ⟨u, hu, _, hwu⟩ := h.back w hw
    hwu.trans (hpath u hu)
  constructor
  case sized => exact he.sized
  case number_le =>
    intro w
    rw [he.count]
    by_cases hw : w = v
    · rw [hw, hnew]
    · rw [hold hw]
      exact (h.number_le w).trans (Nat.le_succ _)
  case descending =>
    rw [he.stack, List.pairwise_cons]
    refine ⟨fun w hw => ?_, h.descending.imp_of_mem fun ha hb hab => by rwa [hstack ha, hstack hb]⟩
    rw [hnew, hstack hw]
    exact Nat.lt_succ_of_le (h.number_le w)
  case held_iff =>
    intro w
    rw [he.held, he.stack, List.mem_cons, Function.update_apply, ← h.held_iff w]
    split <;> simp_all
  case met_iff =>
    intro w
    rw [he.stack, he.classes, List.mem_cons, or_assoc, ← h.met_iff w]
    by_cases hw : w = v
    · simp [hw, hnew]
    · simp [hw, hold hw]
  case apart =>
    rw [he.stack, he.classes, List.forall_mem_cons]
    exact ⟨fun hvc => (h.met_iff v).mpr (.inr hvc) hv, h.apart⟩
  case path_subset =>
    rw [he.stack, List.forall_mem_cons]
    exact ⟨List.mem_cons_self, fun u hu => List.mem_cons_of_mem _ (h.path_subset u hu)⟩
  case followed =>
    intro w hw hwp u hu
    rw [List.mem_cons, not_or] at hwp
    rw [hold hwp.1] at hw
    have hmet := h.followed w hw hwp.2 u hu
    rwa [hold (ne_of_number hmet hv)]
  case forth =>
    rw [he.stack]
    intro a ha b hb hab
    rw [List.mem_cons] at ha hb
    rcases ha with rfl | ha <;> rcases hb with rfl | hb
    · exact .refl
    · rw [hnew, hstack hb] at hab
      exact absurd (h.number_le b) (by omega)
    · exact hforth a ha
    · rw [hstack ha, hstack hb] at hab
      exact h.forth a ha b hb hab
  case back =>
    rw [he.stack, List.forall_mem_cons]
    refine ⟨⟨v, List.mem_cons_self, le_rfl, .refl⟩, fun w hw => ?_⟩
    obtain ⟨u, hu, hle, hwu⟩ := h.back w hw
    refine ⟨u, List.mem_cons_of_mem _ hu, ?_, hwu⟩
    rwa [hstack hw, hstack (h.path_subset u hu)]
  case classified => rw [he.classes]; exact h.classified

/-- Low links are free to change. -/
theorem Inv.lowered (h : Inv g path s) {v bound : Nat} {s' : Search} (hl : Lowered g.size v bound s s') :
    Inv g path s' := by
  constructor
  case sized => exact hl.sized
  all_goals
    simp only [hl.count, hl.number, hl.held, hl.stack, hl.classes]
  exacts [h.number_le, h.descending, h.held_iff, h.met_iff, h.apart, h.path_subset, h.followed, h.forth,
    h.back, h.classified]

theorem Inv.nodup (h : Inv g path s) : s.stack.Nodup := by
  refine h.descending.imp fun hab heq => ?_
  rw [heq] at hab
  exact Nat.lt_irrefl _ hab

/-! ## What a call adds -/

/-- Numbers that were given stay, with their low links, and later numbers are greater. -/
structure Kept (s s' : Search) : Prop where
  count : s.count ≤ s'.count
  number : ∀ u, s.number u ≠ 0 → s'.number u = s.number u
  low : ∀ u, s.number u ≠ 0 → s'.low u = s.low u
  later : ∀ u, s.number u = 0 → s'.number u ≠ 0 → s.count < s'.number u

theorem Kept.refl (s : Search) : Kept s s :=
  ⟨le_rfl, fun _ _ => rfl, fun _ _ => rfl, fun _ h h' => absurd h h'⟩

theorem Kept.met {s s' : Search} (h : Kept s s') {u : Nat} (hu : s.number u ≠ 0) : s'.number u ≠ 0 := by
  rwa [h.number u hu]

theorem Kept.trans {s s' s'' : Search} (h : Kept s s') (h' : Kept s' s'') : Kept s s'' := by
  refine ⟨h.count.trans h'.count, fun u hu => ?_, fun u hu => ?_, fun u hu hu' => ?_⟩
  · rw [h'.number u (h.met hu), h.number u hu]
  · rw [h'.low u (h.met hu), h.low u hu]
  · by_cases hmid : s'.number u = 0
    · exact h.count.trans_lt (h'.later u hmid hu')
    · rw [h'.number u hmid]
      exact h.later u hu hmid

/-- The low link of a vertex without a number may change. -/
theorem Kept.lowered {n v bound : Nat} {s s' s'' : Search} (h : Kept s s') (hv : s.number v = 0)
    (hl : Lowered n v bound s' s'') : Kept s s'' := by
  refine ⟨?_, ?_, fun u hu => ?_, ?_⟩
  · rw [hl.count]
    exact h.count
  · rw [hl.number]
    exact h.number
  · rw [hl.low, Function.update_of_ne (ne_of_number hu hv)]
    exact h.low u hu
  · rw [hl.number]
    exact h.later

/-- What a call for a vertex makes of a search. -/
structure Visited (g : Graph) (path : List Nat) (v : Nat) (s s' : Search) : Prop where
  inv : Inv g path s'
  kept : Kept s s'
  met : s'.number v ≠ 0
  /-- The vertices above the old stack have no edge into it below the low link. -/
  stack : ∃ new, s'.stack = new ++ s.stack ∧
    ∀ x ∈ new, ∀ y ∈ g.next x, y ∈ s.stack → s'.low v ≤ s.number y
  low : s'.low v = s'.number v ∨ ∃ y ∈ s'.stack, s'.number y = s'.low v ∧ g.Reaches v y

/-- What holds within a call for a vertex, after some of its edges. -/
structure Scanned (g : Graph) (path : List Nat) (v : Nat) (done : List Nat) (s₀ s : Search) : Prop where
  inv : Inv g (v :: path) s
  kept : Kept s₀ s
  fresh : s₀.number v = 0
  stack : ∃ above, s.stack = above ++ v :: s₀.stack ∧
    ∀ x ∈ above, ∀ y ∈ g.next x, y ∈ s₀.stack → s.low v ≤ s₀.number y
  done : ∀ w ∈ done, s.number w ≠ 0 ∧ (w ∈ s₀.stack → s.low v ≤ s₀.number w)
  low_le : s.low v ≤ s.number v
  low_mem : ∃ y ∈ s.stack, s.number y = s.low v ∧ g.Reaches v y

namespace Scanned

variable {v : Nat} {done : List Nat} {s₀ : Search}

theorem entered (h₀ : Inv g path s₀) (hv : s₀.number v = 0) (hpath : ∀ u ∈ path, g.Reaches u v)
    (he : Entered g.size v s₀ s) : Scanned g path v [] s₀ s := by
  have hnew : s.number v = s₀.count + 1 := by rw [he.number, Function.update_self]
  have hlow : s.low v = s.number v := by rw [hnew, he.low, Function.update_self]
  constructor
  case inv => exact h₀.entered hv hpath he
  case kept =>
    refine ⟨by rw [he.count]; exact Nat.le_succ _, fun u hu => ?_, fun u hu => ?_, fun u hu hu' => ?_⟩
    · rw [he.number, Function.update_of_ne (ne_of_number hu hv)]
    · rw [he.low, Function.update_of_ne (ne_of_number hu hv)]
    · rw [he.number, Function.update_apply] at hu' ⊢
      split at hu'
      case isTrue huv =>
        rw [if_pos huv]
        exact Nat.lt_succ_self _
      case isFalse => exact absurd hu hu'
  case fresh => exact hv
  case stack => exact ⟨[], he.stack, by simp⟩
  case done => simp
  case low_le => exact hlow.le
  case low_mem => exact ⟨v, by rw [he.stack]; exact List.mem_cons_self, hlow.symm, .refl⟩

theorem mem_stack (h : Scanned g path v done s₀ s) : v ∈ s.stack :=
  h.inv.path_subset v List.mem_cons_self

theorem met (h : Scanned g path v done s₀ s) : s.number v ≠ 0 := h.inv.met h.mem_stack

theorem latest (h : Scanned g path v done s₀ s) : s₀.count < s.number v :=
  h.kept.later v h.fresh h.met

theorem rest_subset (h : Scanned g path v done s₀ s) {y : Nat} (hy : y ∈ s₀.stack) : y ∈ s.stack := by
  obtain ⟨above, hstack, _⟩ := h.stack
  rw [hstack]
  exact List.mem_append_right _ (List.mem_cons_of_mem _ hy)

/-- One more edge was followed, to a vertex that has a number. -/
theorem follow (h : Scanned g path v done s₀ s) {w : Nat} (hw : s.number w ≠ 0)
    (hlow : w ∈ s₀.stack → s.low v ≤ s₀.number w) : Scanned g path v (done ++ [w]) s₀ s := by
  refine { h with done := fun u hu => ?_ }
  rcases List.mem_append.mp hu with hu | hu
  · exact h.done u hu
  · rw [List.mem_singleton.mp hu]
    exact ⟨hw, hlow⟩

/-- An edge leads to the stack. -/
theorem lowered (h₀ : Inv g path s₀) (h : Scanned g path v done s₀ s) {w : Nat} (hw : w ∈ s.stack)
    (hedge : w ∈ g.next v) {s' : Search} (hl : Lowered g.size v (s.number w) s s') :
    Scanned g path v (done ++ [w]) s₀ s' := by
  have hlow : s'.low v = min (s.low v) (s.number w) := by rw [hl.low, Function.update_self]
  have hle : s'.low v ≤ s.low v := hlow ▸ min_le_left _ _
  obtain ⟨above, hstack, hcross⟩ := h.stack
  have hs' : Scanned g path v done s₀ s' := by
    constructor
    case inv => exact h.inv.lowered hl
    case kept => exact h.kept.lowered h.fresh hl
    case fresh => exact h.fresh
    case stack =>
      refine ⟨above, by rw [hl.stack, hstack], fun x hx y hy hyb => ?_⟩
      exact hle.trans (hcross x hx y hy hyb)
    case done =>
      intro u hu
      rw [hl.number]
      exact ⟨(h.done u hu).1, fun hub => hle.trans ((h.done u hu).2 hub)⟩
    case low_le =>
      rw [hl.number]
      exact hle.trans h.low_le
    case low_mem =>
      rw [hl.stack, hl.number, hlow]
      rcases min_choice (s.low v) (s.number w) with hmin | hmin <;> rw [hmin]
      · exact h.low_mem
      · exact ⟨w, hw, rfl, .single hedge⟩
  refine hs'.follow (by rw [hl.number]; exact h.inv.met hw) fun hwb => ?_
  rw [hlow, ← h.kept.number w (h₀.met hwb)]
  exact min_le_right _ _

/-- An edge leads to a vertex that had no number, and a call was made for it. -/
theorem visited (h₀ : Inv g path s₀) (h : Scanned g path v done s₀ s) {w : Nat} (hw : s.number w = 0)
    (hedge : w ∈ g.next v) {s' s'' : Search} (hv : Visited g (v :: path) w s s')
    (hl : Lowered g.size v (s'.low w) s' s'') : Scanned g path v (done ++ [w]) s₀ s'' := by
  have hkept : s'.low v = s.low v := hv.kept.low v h.met
  have hnumber : s'.number v = s.number v := hv.kept.number v h.met
  have hlow : s''.low v = min (s.low v) (s'.low w) := by rw [hl.low, Function.update_self, hkept]
  have hle : s''.low v ≤ s.low v := hlow ▸ min_le_left _ _
  obtain ⟨above, hstack, hcross⟩ := h.stack
  obtain ⟨new, hstack', hcross'⟩ := hv.stack
  have hs'' : Scanned g path v done s₀ s'' := by
    constructor
    case inv => exact hv.inv.lowered hl
    case kept => exact (h.kept.trans hv.kept).lowered h.fresh hl
    case fresh => exact h.fresh
    case stack =>
      refine ⟨new ++ above, by rw [hl.stack, hstack', hstack, List.append_assoc], fun x hx y hy hyb => ?_⟩
      rcases List.mem_append.mp hx with hx | hx
      · have hyl := hcross' x hx y hy (h.rest_subset hyb)
        rw [h.kept.number y (h₀.met hyb)] at hyl
        exact (hlow ▸ min_le_right _ _).trans hyl
      · exact hle.trans (hcross x hx y hy hyb)
    case done =>
      intro u hu
      rw [hl.number]
      exact ⟨hv.kept.met (h.done u hu).1, fun hub => hle.trans ((h.done u hu).2 hub)⟩
    case low_le =>
      rw [hl.number, hnumber]
      exact hle.trans h.low_le
    case low_mem =>
      have hold : ∃ y ∈ s'.stack, s'.number y = s.low v ∧ g.Reaches v y := by
        obtain ⟨y, hy, hyn, hvy⟩ := h.low_mem
        refine ⟨y, by rw [hstack']; exact List.mem_append_right _ hy, ?_, hvy⟩
        rw [hv.kept.number y (h.inv.met hy), hyn]
      rw [hl.stack, hl.number, hlow]
      rcases hv.low with hroot | ⟨y, hy, hyn, hwy⟩
      · -- the low link of a finished class is above all numbers given before
        have hlater := hv.kept.later w hw hv.met
        have hvle := h.inv.number_le v
        have hlowle := h.low_le
        rw [min_eq_left (by omega)]
        exact hold
      · rcases min_choice (s.low v) (s'.low w) with hmin | hmin <;> rw [hmin]
        · exact hold
        · exact ⟨y, hy, hyn, .head hedge hwy⟩
  refine hs''.follow (by rw [hl.number]; exact hv.met) fun hwb => ?_
  exact absurd hw (h.kept.met (h₀.met hwb))

/-! ## When all edges have been followed -/

/-- The number of the vertex is above those of the stack before the call. -/
theorem rest_lt (h₀ : Inv g path s₀) (h : Scanned g path v done s₀ s) {y : Nat} (hy : y ∈ s₀.stack) :
    s.number y < s.number v := by
  rw [h.kept.number y (h₀.met hy)]
  exact (h₀.number_le y).trans_lt h.latest

variable {above : List Nat}

theorem followed (h : Scanned g path v (g.next v) s₀ s) {x : Nat}
    (hx : s.number x ≠ 0) (hpath : x ∉ path) {y : Nat} (hy : y ∈ g.next x) : s.number y ≠ 0 := by
  by_cases hxv : x = v
  · subst hxv
    exact (h.done y hy).1
  · exact h.inv.followed x hx (by simp [hxv, hpath]) y hy

theorem not_mem_rest (h : Scanned g path v done s₀ s) (hstack : s.stack = above ++ v :: s₀.stack) {x : Nat}
    (hx : x ∈ above ++ [v]) : x ∉ s₀.stack := by
  have hnodup := h.inv.nodup
  rw [hstack, List.append_cons, List.nodup_append] at hnodup
  exact fun hx' => hnodup.2.2 x hx x hx' rfl

/-- Nothing leads from the vertex and those above it into the rest of the stack, if its low link is its own
number. -/
theorem closed (h₀ : Inv g path s₀) (h : Scanned g path v (g.next v) s₀ s)
    (hstack : s.stack = above ++ v :: s₀.stack)
    (hcross : ∀ x ∈ above, ∀ y ∈ g.next x, y ∈ s₀.stack → s.low v ≤ s₀.number y)
    (hroot : s.low v = s.number v) {x : Nat} (hx : x ∈ above ++ [v]) {y : Nat} (hy : y ∈ g.next x) :
    y ∈ s.classes.toList.flatten ∨ y ∈ above ++ [v] := by
  have hmet : s.number x ≠ 0 := by
    refine h.inv.met ?_
    rw [hstack, List.append_cons]
    exact List.mem_append_left _ hx
  have hpath : x ∉ path := fun hxp => h.not_mem_rest hstack hx (h₀.path_subset x hxp)
  rcases (h.inv.met_iff y).mp (h.followed hmet hpath hy) with hys | hyc
  · rw [hstack, List.append_cons, List.mem_append] at hys
    refine .inr (hys.resolve_right fun hyb => ?_)
    have hlow : s.low v ≤ s₀.number y := by
      rcases List.mem_append.mp hx with hx | hx
      · exact hcross x hx y hy hyb
      · rw [List.mem_singleton.mp hx] at hy
        exact (h.done y hy).2 hyb
    have hlt := h.rest_lt h₀ hyb
    rw [h.kept.number y (h₀.met hyb)] at hlt
    omega
  · exact .inl hyc

/-- The vertices above a root lead to it: a vertex of the path that they lead to is not below. -/
theorem reaches_root (h₀ : Inv g path s₀) (h : Scanned g path v (g.next v) s₀ s)
    (hstack : s.stack = above ++ v :: s₀.stack)
    (hcross : ∀ x ∈ above, ∀ y ∈ g.next x, y ∈ s₀.stack → s.low v ≤ s₀.number y)
    (hroot : s.low v = s.number v) {x : Nat} (hx : x ∈ above ++ [v]) : g.Reaches x v := by
  have hmem : ∀ {y}, y ∈ above ++ [v] → y ∈ s.stack := fun hy => by
    rw [hstack, List.append_cons]
    exact List.mem_append_left _ hy
  obtain ⟨u, hu, _, hxu⟩ := h.inv.back x (hmem hx)
  rcases List.mem_cons.mp hu with rfl | hu
  · exact hxu
  · have hstay : u ∈ s.classes.toList.flatten ∨ u ∈ above ++ [v] := by
      refine Reaches.mem_of_closed (P := fun y => y ∈ s.classes.toList.flatten ∨ y ∈ above ++ [v])
        ?_ hxu (.inr hx)
      rintro a (ha | ha) b hb
      · exact .inl (h.inv.classified.closed ha hb)
      · exact h.closed h₀ hstack hcross hroot ha hb
    have hrest : u ∈ s₀.stack := h₀.path_subset u hu
    rcases hstay with huc | hua
    · exact absurd huc (h.inv.apart u (h.rest_subset hrest))
    · exact absurd hrest (h.not_mem_rest hstack hua)

theorem mergeSort_pairwise {l : List Nat} (h : l.Nodup) :
    (l.mergeSort fun a b => decide (a ≤ b)).Pairwise (· < ·) := by
  have hle : (l.mergeSort fun a b => decide (a ≤ b)).Pairwise fun a b => a ≤ b := by
    refine (List.pairwise_mergeSort ?_ ?_ l).imp fun hab => of_decide_eq_true hab
    · exact fun a b c hab hbc => decide_eq_true ((of_decide_eq_true hab).trans (of_decide_eq_true hbc))
    · intro a b
      rw [Bool.or_eq_true, decide_eq_true_iff, decide_eq_true_iff]
      exact Nat.le_total a b
  have hnodup := (List.mergeSort_perm l fun a b => decide (a ≤ b)).nodup_iff.mpr h
  exact (hle.and hnodup).imp fun hab => lt_of_le_of_ne hab.1 hab.2

/-- The vertex stays on the stack: it leads to a lower one. -/
theorem stays (h : Scanned g path v (g.next v) s₀ s)
    (hroot : s.low v ≠ s.number v) : Visited g path v s₀ s := by
  obtain ⟨above, hstack, hcross⟩ := h.stack
  obtain ⟨y, hy, hyn, hvy⟩ := h.low_mem
  have hlt : s.low v < s.number v := lt_of_le_of_ne h.low_le hroot
  constructor
  case inv =>
    refine { h.inv with path_subset := ?path_subset, followed := ?followed, back := ?back }
    case path_subset => exact fun u hu => h.inv.path_subset u (List.mem_cons_of_mem _ hu)
    case followed => exact fun u hu hup w hw => h.followed hu hup hw
    case back =>
      intro w hw
      obtain ⟨u, hu, hle, hwu⟩ := h.inv.back w hw
      rcases List.mem_cons.mp hu with rfl | hu
      · -- what led to the vertex leads on to the path, through the lower one
        obtain ⟨z, hz, hzle, hyz⟩ := h.inv.back y hy
        have hzv : z ≠ u := by
          rintro rfl
          omega
        exact ⟨z, List.mem_of_ne_of_mem hzv hz, by omega, (hwu.trans hvy).trans hyz⟩
      · exact ⟨u, hu, hle, hwu⟩
  case kept => exact h.kept
  case met => exact h.met
  case stack =>
    refine ⟨above ++ [v], by rw [hstack, List.append_cons], fun x hx w hw hwb => ?_⟩
    rcases List.mem_append.mp hx with hx | hx
    · exact hcross x hx w hw hwb
    · rw [List.mem_singleton.mp hx] at hw
      exact (h.done w hw).2 hwb
  case low => exact .inr ⟨y, hy, hyn, hvy⟩

/-- The vertex is the root of a class: it comes off the stack with those above it. -/
theorem popped (h₀ : Inv g path s₀) (h : Scanned g path v (g.next v) s₀ s)
    (hstack : s.stack = above ++ v :: s₀.stack)
    (hcross : ∀ x ∈ above, ∀ y ∈ g.next x, y ∈ s₀.stack → s.low v ≤ s₀.number y)
    (hroot : s.low v = s.number v) {onStack : Array Bool} (hsize : onStack.size = g.size)
    (hheld : ∀ w, onStack.getD w false = true ↔ w ∉ above ++ [v] ∧ s.held w = true) :
    Visited g path v s₀ { s with
      stack := s₀.stack, onStack,
      classes := s.classes.push ((above ++ [v]).mergeSort fun a b => decide (a ≤ b)) } := by
  have hmem : ∀ y, y ∈ s.stack ↔ y ∈ above ++ [v] ∨ y ∈ s₀.stack := fun y => by
    rw [hstack, List.append_cons, List.mem_append]
  have hnodup : (above ++ [v]).Nodup := by
    have := h.inv.nodup
    rw [hstack, List.append_cons, List.nodup_append] at this
    exact this.1
  constructor
  case inv =>
    constructor
    case sized => exact ⟨h.inv.sized.index, h.inv.sized.lowLink, hsize⟩
    case number_le => exact h.inv.number_le
    case descending =>
      have := h.inv.descending
      rw [hstack, List.append_cons, List.pairwise_append] at this
      exact this.2.1
    case held_iff =>
      intro w
      refine (hheld w).trans ?_
      rw [h.inv.held_iff w, hmem w]
      constructor
      · exact fun hw => hw.2.resolve_left hw.1
      · exact fun hw => ⟨fun hw' => h.not_mem_rest hstack hw' hw, .inr hw⟩
    case met_iff =>
      intro w
      refine (h.inv.met_iff w).trans ?_
      rw [hmem w, Array.toList_push, List.flatten_concat, List.mem_append (s := s.classes.toList.flatten),
        List.mem_mergeSort]
      tauto
    case apart =>
      intro w hw
      rw [Array.toList_push, List.flatten_concat, List.mem_append, List.mem_mergeSort, not_or]
      exact ⟨h.inv.apart w (h.rest_subset hw), fun hw' => h.not_mem_rest hstack hw' hw⟩
    case path_subset => exact h₀.path_subset
    case followed => exact fun u hu hup w hw => h.followed hu hup hw
    case forth =>
      exact fun a ha b hb hab => h.inv.forth a (h.rest_subset ha) b (h.rest_subset hb) hab
    case back =>
      intro w hw
      obtain ⟨u, hu, hle, hwu⟩ := h.inv.back w (h.rest_subset hw)
      refine ⟨u, List.mem_of_ne_of_mem ?_ hu, hle, hwu⟩
      rintro rfl
      exact absurd hle (Nat.not_le.mpr (h.rest_lt h₀ hw))
    case classified =>
      rw [Array.toList_push]
      have hsort : ∀ {u}, u ∈ (above ++ [v]).mergeSort (fun a b => decide (a ≤ b)) → u ∈ above ++ [v] :=
        List.mem_mergeSort.mp
      refine h.inv.classified.concat ?_ (mergeSort_pairwise hnodup) ?_ ?_ ?_
      · exact List.ne_nil_of_mem (List.mem_mergeSort.mpr (by simp : v ∈ above ++ [v]))
      · exact fun u hu => h.inv.apart u ((hmem u).mpr (.inl (hsort hu)))
      · intro a ha b hb
        refine (h.reaches_root h₀ hstack hcross hroot (hsort ha)).trans ?_
        refine h.inv.forth v h.mem_stack b ((hmem b).mpr (.inl (hsort hb))) ?_
        rcases List.mem_append.mp (hsort hb) with hb | hb
        · have hdesc := h.inv.descending
          rw [hstack, List.pairwise_append] at hdesc
          exact (hdesc.2.2 b hb v List.mem_cons_self).le
        · rw [List.mem_singleton.mp hb]
      · intro u hu w hw
        rw [List.mem_mergeSort]
        exact h.closed h₀ hstack hcross hroot (hsort hu) hw
  case kept => exact ⟨h.kept.count, h.kept.number, h.kept.low, h.kept.later⟩
  case met => exact h.met
  case stack => exact ⟨[], rfl, by simp⟩
  case low => exact .inl hroot

theorem leave_ok (h₀ : Inv g path s₀) (h : Scanned g path v (g.next v) s₀ s) :
    ∃ s', s.leave v = .ok s' ∧ Visited g path v s₀ s' := by
  have hv : v < g.size := h.inv.lt_size h.mem_stack
  have hlow : readAt s.lowLink v = .ok (s.low v) := readAt_of_lt (by rwa [h.inv.sized.lowLink]) 0
  have hindex : readAt s.index v = .ok (s.number v) := readAt_of_lt (by rwa [h.inv.sized.index]) 0
  rw [leave, hlow, hindex]
  by_cases hroot : s.low v = s.number v
  · obtain ⟨above, hstack, hcross⟩ := h.stack
    have hlt : ∀ w ∈ above ++ [v], w < g.size := fun w hw => by
      refine h.inv.lt_size ?_
      rw [hstack, List.append_cons]
      exact List.mem_append_left _ hw
    have hva : v ∉ above := fun hva => by
      have := h.inv.nodup
      rw [hstack, List.nodup_append] at this
      exact this.2.2 v hva v List.mem_cons_self rfl
    obtain ⟨onStack, hpop, hsize, hheld⟩ := popTo_ok h.inv.sized.onStack hlt hva s₀.stack
    refine ⟨_, (if_neg (not_not.mpr hroot)).trans ?_, h.popped h₀ hstack hcross hroot hsize hheld⟩
    rw [hstack, hpop]
    rfl
  · exact ⟨s, if_pos hroot, h.stays hroot⟩

end Scanned

/-! ## Whole searches -/

/-- The vertices that have no number. -/
def unmet (g : Graph) (s : Search) : Finset Nat := {v ∈ Finset.range g.size | s.number v = 0}

theorem card_unmet_lt {s s' : Search} (h : Kept s s') {v : Nat} (hv : v < g.size) (hs : s.number v = 0)
    (hs' : s'.number v ≠ 0) : (unmet g s').card < (unmet g s).card := by
  refine Finset.card_lt_card (Finset.ssubset_iff_of_subset (fun u hu => ?_) |>.mpr ⟨v, ?_, ?_⟩)
  · rw [unmet, Finset.mem_filter] at hu ⊢
    refine ⟨hu.1, ?_⟩
    by_contra hne
    exact h.met hne hu.2
  · simp [unmet, hv, hs]
  · simp [unmet, hs']

theorem Scanned.card_unmet_lt {v : Nat} {done : List Nat} {s₀ : Search}
    (h : Scanned g path v done s₀ s) : (unmet g s).card < (unmet g s₀).card :=
  Search.card_unmet_lt h.kept (h.inv.lt_size h.mem_stack) h.fresh h.met

/-- One edge: `visit` is known to search the vertices without a number. -/
theorem Scanned.follow_ok (hg : g.Within g.size) {visit : Nat → Search → Except Fault Search} {v : Nat}
    {done : List Nat} {s₀ : Search} (h₀ : Inv g path s₀)
    (hvisit : ∀ w s, (unmet g s).card < (unmet g s₀).card → Inv g (v :: path) s → w < g.size →
      s.number w = 0 → (∀ u ∈ v :: path, g.Reaches u w) →
      ∃ s', visit w s = .ok s' ∧ Visited g (v :: path) w s s')
    (h : Scanned g path v done s₀ s) {w : Nat} (hw : w ∈ g.next v) :
    ∃ s', Search.follow visit v s w = .ok s' ∧ Scanned g path v (done ++ [w]) s₀ s' := by
  have hwsize : w < g.size := hg v w hw
  have hvsize : v < g.size := h.inv.lt_size h.mem_stack
  have hindex : readAt s.index w = .ok (s.number w) := readAt_of_lt (by rwa [h.inv.sized.index]) 0
  have honStack : readAt s.onStack w = .ok (s.held w) := readAt_of_lt (by rwa [h.inv.sized.onStack]) false
  have hfollow : Search.follow visit v s w = if s.number w = 0 then do
        let s ← visit w s
        s.lower v (← readAt s.lowLink w)
      else if s.held w then s.lower v (s.number w) else .ok s := by
    rw [Search.follow, hindex, honStack]
    rfl
  rw [hfollow]
  by_cases hmet : s.number w = 0
  · have hlead : ∀ u ∈ v :: path, g.Reaches u w := by
      intro u hu
      refine .tail ?_ hw
      rcases List.mem_cons.mp hu with rfl | hup
      · exact .refl
      · have hrest := h₀.path_subset u hup
        exact h.inv.forth u (h.rest_subset hrest) v h.mem_stack (h.rest_lt h₀ hrest).le
    obtain ⟨s', hs', hvisited⟩ := hvisit w s h.card_unmet_lt h.inv hwsize hmet hlead
    have hlow : readAt s'.lowLink w = .ok (s'.low w) :=
      readAt_of_lt (by rwa [hvisited.inv.sized.lowLink]) 0
    obtain ⟨s'', hs'', hlowered⟩ := lower_ok hvisited.inv.sized hvsize (s'.low w)
    refine ⟨s'', ?_, h.visited h₀ hmet hw hvisited hlowered⟩
    rw [if_pos hmet, hs']
    change (readAt s'.lowLink w >>= fun low => s'.lower v low) = _
    rw [hlow]
    exact hs''
  · rw [if_neg hmet]
    by_cases hheld : w ∈ s.stack
    · rw [if_pos ((h.inv.held_iff w).mpr hheld)]
      obtain ⟨s', hs', hlowered⟩ := lower_ok h.inv.sized hvsize (s.number w)
      exact ⟨s', hs', h.lowered h₀ hheld hw hlowered⟩
    · rw [if_neg fun hh => hheld ((h.inv.held_iff w).mp hh)]
      exact ⟨s, rfl, h.follow hmet fun hwb => absurd (h.rest_subset hwb) hheld⟩

theorem Scanned.foldlM_ok (hg : g.Within g.size) {visit : Nat → Search → Except Fault Search} {v : Nat}
    {s₀ : Search} (h₀ : Inv g path s₀)
    (hvisit : ∀ w s, (unmet g s).card < (unmet g s₀).card → Inv g (v :: path) s → w < g.size →
      s.number w = 0 → (∀ u ∈ v :: path, g.Reaches u w) →
      ∃ s', visit w s = .ok s' ∧ Visited g (v :: path) w s s')
    {done rest : List Nat} (h : Scanned g path v done s₀ s) (hrest : ∀ w ∈ rest, w ∈ g.next v) :
    ∃ s', rest.foldlM (Search.follow visit v) s = .ok s' ∧ Scanned g path v (done ++ rest) s₀ s' := by
  induction rest generalizing done s with
  | nil => exact ⟨s, rfl, by rwa [List.append_nil]⟩
  | cons w rest ih =>
    rw [List.forall_mem_cons] at hrest
    obtain ⟨s', hs', h'⟩ := h.follow_ok hg h₀ hvisit hrest.1
    obtain ⟨s'', hs'', h''⟩ := ih h' hrest.2
    refine ⟨s'', ?_, by rwa [List.append_cons]⟩
    rw [List.foldlM_cons, hs']
    exact hs''

end Search

open Search

variable {g : Graph}

/-- A call needs no more nested calls than there are vertices without a number. -/
theorem visit_ok (hg : g.Within g.size) (depth : Nat) {path : List Nat} {v : Nat} {s : Search}
    (h : Inv g path s) (hv : v < g.size) (hmet : s.number v = 0) (hpath : ∀ u ∈ path, g.Reaches u v)
    (hdepth : (unmet g s).card ≤ depth) :
    ∃ s', g.visit depth v s = .ok s' ∧ Visited g path v s s' := by
  induction depth generalizing path v s with
  | zero =>
    have hempty := Finset.card_eq_zero.mp (Nat.le_zero.mp hdepth)
    have hmem : v ∈ unmet g s := by simp [unmet, hv, hmet]
    simp [hempty] at hmem
  | succ depth ih =>
    obtain ⟨s₁, hs₁, hentered⟩ := enter_ok h.sized hv
    have hedges : readAt g v = .ok (g.next v) := readAt_of_lt hv []
    obtain ⟨s₂, hs₂, hscanned⟩ := (Scanned.entered h hmet hpath hentered).foldlM_ok hg h
      (fun w s' hlt h' hw hw' hlead => ih h' hw hw' hlead (by omega)) (fun w hw => hw)
    obtain ⟨s₃, hs₃, hvisited⟩ := Scanned.leave_ok h hscanned
    refine ⟨s₃, ?_, hvisited⟩
    rw [visit, hs₁]
    change (readAt g v >>= fun ws => ws.foldlM (follow (visit g depth) v) s₁ >>= fun s => s.leave v) = _
    rw [hedges]
    change (((g.next v).foldlM (follow (visit g depth) v) s₁) >>= fun s => s.leave v) = _
    rw [hs₂]
    exact hs₃

/-- A search from some vertices numbers them all, and leaves nothing on the stack. -/
theorem foldlM_visitNew_ok (hg : g.Within g.size) {depth : Nat} (hdepth : g.size ≤ depth) {vs : List Nat}
    (hvs : ∀ v ∈ vs, v < g.size) {s : Search} (h : Inv g [] s) :
    ∃ s', vs.foldlM (g.visitNew depth) s = .ok s' ∧ Inv g [] s' ∧ Kept s s' ∧
      ∀ v ∈ vs, s'.number v ≠ 0 := by
  induction vs generalizing s with
  | nil => exact ⟨s, rfl, h, .refl s, by simp⟩
  | cons v vs ih =>
    rw [List.forall_mem_cons] at hvs
    have hstep : ∃ s', g.visitNew depth s v = .ok s' ∧ Inv g [] s' ∧ Kept s s' ∧ s'.number v ≠ 0 := by
      have hindex : readAt s.index v = .ok (s.number v) := readAt_of_lt (by rw [h.sized.index]; exact hvs.1) 0
      have hvisitNew : g.visitNew depth s v = if s.number v = 0 then g.visit depth v s else .ok s := by
        rw [visitNew, hindex]
        rfl
      rw [hvisitNew]
      by_cases hmet : s.number v = 0
      · have hcard : (unmet g s).card ≤ depth := by
          refine (Finset.card_filter_le _ _).trans ?_
          rwa [Finset.card_range]
        obtain ⟨s', hs', hvisited⟩ := visit_ok hg depth h hvs.1 hmet (by simp) hcard
        rw [if_pos hmet]
        exact ⟨s', hs', hvisited.inv, hvisited.kept, hvisited.met⟩
      · rw [if_neg hmet]
        exact ⟨s, rfl, h, .refl s, hmet⟩
    obtain ⟨s₁, hs₁, h₁, hkept₁, hmet₁⟩ := hstep
    obtain ⟨s₂, hs₂, h₂, hkept₂, hmet₂⟩ := ih hvs.2 h₁
    refine ⟨s₂, ?_, h₂, hkept₁.trans hkept₂, List.forall_mem_cons.mpr ⟨hkept₂.met hmet₁, hmet₂⟩⟩
    rw [List.foldlM_cons, hs₁]
    exact hs₂

/-- The search of a graph ends within each depth from the number of vertices on. -/
theorem exists_classified (hg : g.Within g.size) {depth : Nat} (hdepth : g.size ≤ depth) :
    ∃ classes, g.componentsWithin depth = .ok classes ∧ g.Classified classes ∧
      ∀ v, v ∈ classes.flatten ↔ v < g.size := by
  obtain ⟨s, hs, h, _, hmet⟩ := foldlM_visitNew_ok hg hdepth
    (fun v (hv : v ∈ List.range g.size) => List.mem_range.mp hv) (.start g)
  refine ⟨s.classes.toList, ?_, h.classified, fun v => ⟨fun hv => ?_, fun hv => ?_⟩⟩
  · rw [componentsWithin, hs]
    rfl
  · exact h.sized.lt_of_number ((h.met_iff v).mpr (.inr hv))
  · refine ((h.met_iff v).mp (hmet v (List.mem_range.mpr hv))).resolve_left fun hstack => ?_
    -- without a path nothing is left on the stack
    obtain ⟨u, hu, _⟩ := h.back v hstack
    exact absurd hu List.not_mem_nil

/-! ## Depth -/

theorem Search.follow_of_le {visit visit' : Nat → Search → Except Fault Search}
    (hle : ∀ {v s s'}, visit v s = .ok s' → visit' v s = .ok s') {v w : Nat} {s s' : Search}
    (h : follow visit v s w = .ok s') : follow visit' v s w = .ok s' := by
  rw [follow, bind_eq_ok] at h ⊢
  obtain ⟨number, hnumber, h⟩ := h
  refine ⟨number, hnumber, ?_⟩
  split at h
  case isTrue h0 =>
    rw [bind_eq_ok] at h
    obtain ⟨s₁, hvisit, h⟩ := h
    rw [if_pos h0, bind_eq_ok]
    exact ⟨s₁, hle hvisit, h⟩
  case isFalse h0 =>
    rw [if_neg h0]
    exact h

theorem foldlM_of_le {f f' : Search → Nat → Except Fault Search}
    (hle : ∀ {s v s'}, f s v = .ok s' → f' s v = .ok s') {vs : List Nat} {s s' : Search}
    (h : vs.foldlM f s = .ok s') : vs.foldlM f' s = .ok s' := by
  induction vs generalizing s with
  | nil => exact h
  | cons v vs ih =>
    rw [List.foldlM_cons, bind_eq_ok] at h ⊢
    obtain ⟨s₁, hs₁, h⟩ := h
    exact ⟨s₁, hle hs₁, ih h⟩

/-- What a call finds it finds within greater depths. -/
theorem visit_of_le {depth depth' : Nat} (hle : depth ≤ depth') {v : Nat} {s s' : Search}
    (h : g.visit depth v s = .ok s') : g.visit depth' v s = .ok s' := by
  induction depth generalizing depth' v s s' with
  | zero => cases h
  | succ depth ih =>
    obtain ⟨more, rfl⟩ : ∃ more, depth' = more + 1 := ⟨depth' - 1, by omega⟩
    rw [visit, bind_eq_ok] at h ⊢
    obtain ⟨s₁, hs₁, h⟩ := h
    refine ⟨s₁, hs₁, ?_⟩
    rw [bind_eq_ok] at h ⊢
    obtain ⟨ws, hws, h⟩ := h
    refine ⟨ws, hws, ?_⟩
    rw [bind_eq_ok] at h ⊢
    obtain ⟨s₂, hs₂, h⟩ := h
    exact ⟨s₂, foldlM_of_le (Search.follow_of_le (ih (by omega))) hs₂, h⟩

/-- The classes that are found do not depend on the depth. -/
theorem componentsWithin_of_le {depth depth' : Nat} (hle : depth ≤ depth') {classes : List (List Nat)}
    (h : g.componentsWithin depth = .ok classes) : g.componentsWithin depth' = .ok classes := by
  rw [componentsWithin, bind_eq_ok] at h ⊢
  obtain ⟨s, hs, h⟩ := h
  refine ⟨s, foldlM_of_le (fun {s v s'} hv => ?_) hs, h⟩
  rw [visitNew, bind_eq_ok] at hv ⊢
  obtain ⟨number, hnumber, hv⟩ := hv
  refine ⟨number, hnumber, ?_⟩
  split at hv
  case isTrue h0 =>
    rw [if_pos h0]
    exact visit_of_le hle hv
  case isFalse h0 =>
    rw [if_neg h0]
    exact hv

end Graph

end Polytype
