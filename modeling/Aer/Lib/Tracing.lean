import Mathlib.Data.List.Basic
import Mathlib.Algebra.BigOperators.Group.List.Basic
import Mathlib.Algebra.Order.Ring.Nat

set_option linter.all false

/-! Tracing a finite graph with an explicit worklist. References denote at most
one node; a node is expanded the first time it is visited. The store that holds
the mark bits is arbitrary, so the lemmas apply to any layout of the marks. -/
namespace Aer.Lib.Tracing

structure Tracer (σ κ ν : Type) where
  node : σ → κ → Option ν
  children : σ → ν → List κ
  isMarked : σ → ν → Bool
  mark : σ → ν → σ
  isMarked_mark : ∀ s k n, node s k = some n →
    ∀ m, isMarked (mark s n) m = true ↔ m = n ∨ isMarked s m = true
  node_mark : ∀ s n k, node (mark s n) k = node s k
  children_mark : ∀ s n m, children (mark s n) m = children s m

variable {σ κ ν : Type} (T : Tracer σ κ ν)

/-- The nodes a list of references leads to. -/
inductive Reach (s : σ) (roots : List κ) : ν → Prop
  | root {k n} : k ∈ roots → T.node s k = some n → Reach s roots n
  | step {n k m} : Reach s roots n → k ∈ T.children s n → T.node s k = some m → Reach s roots m

theorem Reach.mono {s : σ} {roots more : List κ} (h : roots ⊆ more) {n : ν}
    (hn : Reach T s roots n) : Reach T s more n := by
  induction hn with
  | root hk hnode => exact .root (h hk) hnode
  | step _ hk hnode ih => exact .step ih hk hnode

/-- Two stores with the same nodes and edges. -/
structure SameGraph (s t : σ) : Prop where
  node : ∀ k, T.node t k = T.node s k
  children : ∀ n, T.children t n = T.children s n

theorem SameGraph.refl (s : σ) : SameGraph T s s := ⟨fun _ => rfl, fun _ => rfl⟩

theorem SameGraph.trans {s t u : σ} (h : SameGraph T s t) (h' : SameGraph T t u) :
    SameGraph T s u :=
  ⟨fun k => (h'.node k).trans (h.node k), fun n => (h'.children n).trans (h.children n)⟩

theorem SameGraph.symm {s t : σ} (h : SameGraph T s t) : SameGraph T t s :=
  ⟨fun k => (h.node k).symm, fun n => (h.children n).symm⟩

theorem Reach.congr {s t : σ} (h : SameGraph T s t) {roots : List κ} {n : ν}
    (hn : Reach T s roots n) : Reach T t roots n := by
  induction hn with
  | root hk hnode => exact .root hk (by rw [h.node]; exact hnode)
  | step _ hk hnode ih =>
    exact .step ih (by rw [h.children]; exact hk) (by rw [h.node]; exact hnode)

/-- Expand an unmarked node: mark it and push its children, the last on top. -/
def expand (s : σ) (work : List κ) (n : ν) : σ × List κ :=
  if T.isMarked s n then (s, work) else (T.mark s n, (T.children s n).reverse ++ work)

def visit (s : σ) (work : List κ) (k : κ) : σ × List κ :=
  match T.node s k with
  | none => (s, work)
  | some n => expand T s work n

def drain : Nat → σ → List κ → σ × List κ
  | 0, s, work => (s, work)
  | _ + 1, s, [] => (s, [])
  | fuel + 1, s, k :: work =>
      let next := visit T s work k
      drain fuel next.1 next.2

/-- The invariant of a trace in progress, for the nodes `R` it is after: what is
marked or waiting is in `R`, and an edge that leaves the marked part is waiting. -/
structure InTrace (R : ν → Prop) (s : σ) (work : List κ) : Prop where
  marked : ∀ n, T.isMarked s n = true → R n
  waiting : ∀ k ∈ work, ∀ n, T.node s k = some n → R n
  closed : ∀ n, T.isMarked s n = true → ∀ k ∈ T.children s n, ∀ m, T.node s k = some m →
    T.isMarked s m = true ∨ k ∈ work

section Step
variable {T} {R : ν → Prop} {s : σ} {work : List κ}

theorem InTrace.push (h : InTrace T R s work) {k : κ}
    (hk : ∀ n, T.node s k = some n → R n) : InTrace T R s (k :: work) where
  marked := h.marked
  waiting := by
    intro j hj n hn
    cases List.mem_cons.mp hj with
    | inl he => exact hk n (he ▸ hn)
    | inr hw => exact h.waiting j hw n hn
  closed n hn j hj m hm := (h.closed n hn j hj m hm).imp id (List.mem_cons_of_mem _)

theorem InTrace.expand (h : InTrace T R s work) {j : κ} {n : ν} (hj : T.node s j = some n)
    (hn : R n) (hR : ∀ k ∈ T.children s n, ∀ m, T.node s k = some m → R m) :
    InTrace T R (expand T s work n).1 (expand T s work n).2 := by
  unfold Tracing.expand
  split
  · exact h
  · refine ⟨?_, ?_, ?_⟩
    · intro m hm
      rcases (T.isMarked_mark s j n hj m).mp hm with rfl | hm
      · exact hn
      · exact h.marked m hm
    · intro k hk m hm
      rw [T.node_mark] at hm
      cases List.mem_append.mp hk with
      | inl hc => exact hR k (List.mem_reverse.mp hc) m hm
      | inr hw => exact h.waiting k hw m hm
    · intro m hm k hk i hi
      rw [T.children_mark] at hk
      rw [T.node_mark] at hi
      simp only [T.isMarked_mark s j n hj, List.mem_append, List.mem_reverse]
      rcases (T.isMarked_mark s j n hj m).mp hm with rfl | hm
      · exact .inr (.inl hk)
      · exact (h.closed m hm k hk i hi).imp .inr .inr

/-- Popping a reference keeps the invariant once its node is marked. -/
theorem InTrace.pop {k : κ} (h : InTrace T R s (k :: work))
    (hk : ∀ n, T.node s k = some n → T.isMarked s n = true) : InTrace T R s work where
  marked := h.marked
  waiting j hj := h.waiting j (List.mem_cons_of_mem _ hj)
  closed n hn j hj m hm := by
    rcases h.closed n hn j hj m hm with hm' | hw
    · exact .inl hm'
    · cases List.mem_cons.mp hw with
      | inl he => exact .inl (hk m (he ▸ hm))
      | inr hw => exact .inr hw

end Step

theorem isMarked_expand {s : σ} {work : List κ} {k : κ} {n : ν} (hk : T.node s k = some n) :
    T.isMarked (expand T s work n).1 n = true := by
  unfold expand
  split
  · assumption
  · exact (T.isMarked_mark s k n hk n).mpr (.inl rfl)

theorem isMarked_expand_mono {s : σ} {work : List κ} {k : κ} {n m : ν} (hk : T.node s k = some n)
    (h : T.isMarked s m = true) : T.isMarked (expand T s work n).1 m = true := by
  unfold expand
  split
  · exact h
  · exact (T.isMarked_mark s k n hk m).mpr (.inr h)

theorem sameGraph_expand (s : σ) (work : List κ) (n : ν) :
    SameGraph T s (expand T s work n).1 := by
  unfold expand
  split
  · exact .refl T s
  · exact ⟨T.node_mark s n, T.children_mark s n⟩

theorem subset_expand (s : σ) (work : List κ) (n : ν) : work ⊆ (expand T s work n).2 := by
  unfold expand
  split
  · exact List.Subset.refl _
  · exact List.subset_append_right _ _

/-- A set of nodes closed under the edges of `s`. -/
def Closed (s : σ) (R : ν → Prop) : Prop :=
  ∀ n, R n → ∀ k ∈ T.children s n, ∀ m, T.node s k = some m → R m

theorem reach_closed (s : σ) (roots : List κ) : Closed T s (Reach T s roots) :=
  fun _ hn _ hk _ hm => .step hn hk hm

theorem InTrace.visit {R : ν → Prop} {s : σ} {work : List κ} {k : κ} (hR : Closed T s R)
    (h : InTrace T R s (k :: work)) :
    InTrace T R (visit T s work k).1 (visit T s work k).2 := by
  unfold Tracing.visit
  cases hn : T.node s k with
  | none => exact h.pop (by intro n hn'; rw [hn] at hn'; cases hn')
  | some n =>
    have hRn : R n := h.waiting k (List.mem_cons_self ..) n hn
    have hexp := h.expand hn hRn (hR n hRn)
    unfold Tracing.expand at hexp ⊢
    split at hexp
    · rename_i hm
      simp only [hm, ↓reduceIte]
      exact hexp.pop (by intro m hm'; rw [hn] at hm'; cases hm'; exact hm)
    · rename_i hm
      simp only [hm, Bool.false_eq_true, ↓reduceIte]
      -- The popped reference lies between the pushed children and the rest.
      refine ⟨hexp.marked, ?_, ?_⟩
      · intro j hj
        refine hexp.waiting j ?_
        cases List.mem_append.mp hj with
        | inl hc => exact List.mem_append_left _ hc
        | inr hw => exact List.mem_append_right _ (List.mem_cons_of_mem _ hw)
      · intro m hm' j hj i hi
        rcases hexp.closed m hm' j hj i hi with hi' | hw
        · exact .inl hi'
        · rcases List.mem_append.mp hw with hc | hw
          · exact .inr (List.mem_append_left _ hc)
          · cases List.mem_cons.mp hw with
            | inl he =>
              refine .inl ((T.isMarked_mark s k n hn i).mpr (.inl ?_))
              rw [T.node_mark, he, hn] at hi
              exact (Option.some.inj hi).symm
            | inr hw => exact .inr (List.mem_append_right _ hw)

theorem sameGraph_visit (s : σ) (work : List κ) (k : κ) :
    SameGraph T s (visit T s work k).1 := by
  unfold visit
  split
  · exact .refl T s
  · exact sameGraph_expand T s work _

theorem Closed.congr {s t : σ} (h : SameGraph T s t) {R : ν → Prop} (hR : Closed T s R) :
    Closed T t R := by
  intro n hn k hk m hm
  rw [h.children] at hk
  rw [h.node] at hm
  exact hR n hn k hk m hm

theorem isMarked_visit {s : σ} {work : List κ} {k : κ} {n : ν} (hn : T.node s k = some n) :
    T.isMarked (visit T s work k).1 n = true := by
  unfold visit
  rw [hn]
  exact isMarked_expand T hn

theorem isMarked_visit_mono {s : σ} {work : List κ} {k : κ} {n : ν}
    (h : T.isMarked s n = true) : T.isMarked (visit T s work k).1 n = true := by
  unfold visit
  split
  · exact h
  · rename_i m hm
    exact isMarked_expand_mono T hm h

theorem subset_visit (s : σ) (work : List κ) (k : κ) : work ⊆ (visit T s work k).2 := by
  unfold visit
  split
  · exact List.Subset.refl _
  · exact subset_expand T s work _

/-- A drained trace has marked what was marked before and what was waiting. -/
theorem drain_marks {fuel : Nat} {s : σ} {work : List κ} (hdone : (drain T fuel s work).2 = []) :
    (∀ n, T.isMarked s n = true → T.isMarked (drain T fuel s work).1 n = true) ∧
    ∀ k ∈ work, ∀ n, T.node s k = some n → T.isMarked (drain T fuel s work).1 n = true := by
  induction fuel generalizing s work with
  | zero =>
    subst hdone
    exact ⟨fun _ h => h, by simp⟩
  | succ fuel ih =>
    cases work with
    | nil => exact ⟨fun _ h => h, by simp⟩
    | cons k work =>
      obtain ⟨hmono, hwork⟩ := @ih (visit T s work k).1 (visit T s work k).2 hdone
      refine ⟨fun n hn => hmono n (isMarked_visit_mono T hn), ?_⟩
      intro j hj n hn
      cases List.mem_cons.mp hj with
      | inl he => exact hmono n (isMarked_visit T (he ▸ hn))
      | inr hw => exact hwork j (subset_visit T s work k hw) n (by rw [(sameGraph_visit T s work k).node]; exact hn)

theorem InTrace.drain {R : ν → Prop} {fuel : Nat} {s : σ} {work : List κ} (hR : Closed T s R)
    (h : InTrace T R s work) : InTrace T R (drain T fuel s work).1 (drain T fuel s work).2 := by
  induction fuel generalizing s work with
  | zero => exact h
  | succ fuel ih =>
    cases work with
    | nil => exact h
    | cons k work => exact ih (hR.congr T (sameGraph_visit T s work k)) (h.visit T hR)

theorem sameGraph_drain (fuel : Nat) (s : σ) (work : List κ) :
    SameGraph T s (drain T fuel s work).1 := by
  induction fuel generalizing s work with
  | zero => exact .refl T s
  | succ fuel ih =>
    cases work with
    | nil => exact .refl T s
    | cons k work => exact (sameGraph_visit T s work k).trans T (ih _ _)

/-- A trace that started inside `Reach` and ends with an empty worklist has
marked exactly the reachable nodes. -/
theorem drain_reach {fuel : Nat} {s : σ} {work roots : List κ}
    (h : InTrace T (Reach T s roots) s work)
    (hroots : ∀ k ∈ roots, ∀ n, T.node s k = some n → T.isMarked s n = true ∨ k ∈ work)
    (hdone : (Tracing.drain T fuel s work).2 = []) (n : ν) :
    T.isMarked (Tracing.drain T fuel s work).1 n = true ↔ Reach T s roots n := by
  have hinv := @InTrace.drain _ _ _ T _ fuel _ _ (reach_closed T s roots) h
  have hsame := sameGraph_drain T fuel s work
  obtain ⟨hmono, hwork⟩ := drain_marks T hdone
  refine ⟨hinv.marked n, ?_⟩
  intro hn
  induction hn with
  | root hk hnode =>
    rcases hroots _ hk _ hnode with hm | hw
    · exact hmono _ hm
    · exact hwork _ hw _ hnode
  | step _ hk hm ih =>
    rcases hinv.closed _ ih _ (by rw [hsame.children]; exact hk) _ (by rw [hsame.node]; exact hm)
      with h' | hw
    · exact h'
    · rw [hdone] at hw
      cases hw

section Seeds

/-- How a root enters a trace: it waits on the worklist, or it is visited at once. -/
inductive Seed (κ : Type)
  | later (k : κ)
  | now (k : κ)

def Seed.ref : Seed κ → κ
  | later k => k
  | now k => k

def plant (p : σ × List κ) : Seed κ → σ × List κ
  | .later k => (p.1, k :: p.2)
  | .now k => visit T p.1 p.2 k

theorem InTrace.plant {R : ν → Prop} {p : σ × List κ} (hR : Closed T p.1 R)
    (h : InTrace T R p.1 p.2) {seed : Seed κ} (hseed : ∀ n, T.node p.1 seed.ref = some n → R n) :
    InTrace T R (plant T p seed).1 (plant T p seed).2 := by
  cases seed with
  | later k => exact h.push hseed
  | now k => exact (h.push hseed).visit T hR

theorem sameGraph_plant (p : σ × List κ) (seed : Seed κ) : SameGraph T p.1 (plant T p seed).1 := by
  cases seed with
  | later k => exact .refl T _
  | now k => exact sameGraph_visit T _ _ _

theorem plant_mono {p : σ × List κ} {seed : Seed κ} :
    (∀ n, T.isMarked p.1 n = true → T.isMarked (plant T p seed).1 n = true) ∧
      p.2 ⊆ (plant T p seed).2 := by
  cases seed with
  | later k => exact ⟨fun _ h => h, List.subset_cons_self _ _⟩
  | now k => exact ⟨fun _ => isMarked_visit_mono T, subset_visit T _ _ _⟩

theorem plant_covers {p : σ × List κ} {seed : Seed κ} {n : ν}
    (hn : T.node p.1 seed.ref = some n) :
    T.isMarked (plant T p seed).1 n = true ∨ seed.ref ∈ (plant T p seed).2 := by
  cases seed with
  | later k => exact .inr (List.mem_cons_self ..)
  | now k => exact .inl (isMarked_visit T hn)

/-- Planting all the seeds keeps the invariant, and covers each of them. -/
theorem InTrace.seeds {R : ν → Prop} {p : σ × List κ} {seeds : List (Seed κ)}
    (hR : Closed T p.1 R) (h : InTrace T R p.1 p.2)
    (hseeds : ∀ seed ∈ seeds, ∀ n, T.node p.1 seed.ref = some n → R n) :
    InTrace T R (seeds.foldl (Tracing.plant T) p).1 (seeds.foldl (Tracing.plant T) p).2 := by
  induction seeds generalizing p with
  | nil => exact h
  | cons seed seeds ih =>
    have hsame := sameGraph_plant T p seed
    refine ih (hR.congr T hsame) (h.plant T hR (hseeds seed (List.mem_cons_self ..))) ?_
    intro other hother n hn
    rw [hsame.node] at hn
    exact hseeds other (List.mem_cons_of_mem _ hother) n hn

theorem sameGraph_seeds (p : σ × List κ) (seeds : List (Seed κ)) :
    SameGraph T p.1 (seeds.foldl (plant T) p).1 := by
  induction seeds generalizing p with
  | nil => exact .refl T _
  | cons seed seeds ih => exact (sameGraph_plant T p seed).trans T (ih _)

theorem seeds_mono (p : σ × List κ) (seeds : List (Seed κ)) :
    (∀ n, T.isMarked p.1 n = true → T.isMarked (seeds.foldl (plant T) p).1 n = true) ∧
      p.2 ⊆ (seeds.foldl (plant T) p).2 := by
  induction seeds generalizing p with
  | nil => exact ⟨fun _ h => h, List.Subset.refl _⟩
  | cons seed seeds ih =>
    obtain ⟨hmark, hwork⟩ := @plant_mono _ _ _ T p seed
    obtain ⟨hmark', hwork'⟩ := ih (plant T p seed)
    exact ⟨fun n hn => hmark' n (hmark n hn), fun k hk => hwork' (hwork hk)⟩

theorem seeds_covers {p : σ × List κ} {seeds : List (Seed κ)} {seed : Seed κ}
    (hseed : seed ∈ seeds) {n : ν} (hn : T.node p.1 seed.ref = some n) :
    T.isMarked (seeds.foldl (plant T) p).1 n = true ∨ seed.ref ∈ (seeds.foldl (plant T) p).2 := by
  induction seeds generalizing p with
  | nil => cases hseed
  | cons first seeds ih =>
    cases List.mem_cons.mp hseed with
    | inl he =>
      subst he
      obtain ⟨hmark, hwork⟩ := seeds_mono T (plant T p seed) seeds
      exact (plant_covers T hn).imp (hmark n) fun h => hwork h
    | inr hrest => exact ih hrest (by rw [(sameGraph_plant T p first).node]; exact hn)

/-- A trace from an unmarked store, with its roots planted as seeds, marks
exactly what the roots reach, whatever the order of the seeds. -/
theorem trace_reach {fuel : Nat} {s : σ} {seeds : List (Seed κ)}
    (hclear : ∀ n, T.isMarked s n = false)
    (hdone : (drain T fuel (seeds.foldl (plant T) (s, [])).1
      (seeds.foldl (plant T) (s, [])).2).2 = []) (n : ν) :
    T.isMarked (drain T fuel (seeds.foldl (plant T) (s, [])).1
        (seeds.foldl (plant T) (s, [])).2).1 n = true ↔
      Reach T s (seeds.map Seed.ref) n := by
  have hempty : ∀ m, T.isMarked s m ≠ true := by simp [hclear]
  have hstart : InTrace T (Reach T s (seeds.map Seed.ref)) s [] :=
    ⟨fun m hm => absurd hm (hempty m), by simp, fun m hm => absurd hm (hempty m)⟩
  have hsame := sameGraph_seeds T (s, []) seeds
  have hinv := @InTrace.seeds _ _ _ T _ (s, []) seeds (reach_closed T s _) hstart
    fun seed hseed m hm => .root (List.mem_map_of_mem hseed) hm
  have hiff : Reach T s (seeds.map Seed.ref) =
      Reach T (seeds.foldl (plant T) (s, [])).1 (seeds.map Seed.ref) :=
    funext fun m => propext ⟨.congr T hsame, .congr T hsame.symm⟩
  rw [hiff] at hinv ⊢
  refine drain_reach T hinv ?_ hdone n
  intro k hk m hm
  obtain ⟨seed, hseed, rfl⟩ := List.mem_map.mp hk
  rw [hsame.node] at hm
  exact seeds_covers T hseed hm

end Seeds

section Preserved
variable {P : σ → Prop}

theorem visit_preserves (hmark : ∀ s n, P s → P (T.mark s n)) {s : σ} (work : List κ) (k : κ)
    (h : P s) : P (visit T s work k).1 := by
  unfold visit
  split
  · exact h
  · unfold expand
    split
    · exact h
    · exact hmark _ _ h

theorem drain_preserves (hmark : ∀ s n, P s → P (T.mark s n)) (fuel : Nat) {s : σ}
    (work : List κ) (h : P s) : P (drain T fuel s work).1 := by
  induction fuel generalizing s work with
  | zero => exact h
  | succ fuel ih =>
    cases work with
    | nil => exact h
    | cons k work => exact ih _ (visit_preserves T hmark work k h)

theorem seeds_preserves (hmark : ∀ s n, P s → P (T.mark s n)) (seeds : List (Seed κ))
    {p : σ × List κ} (h : P p.1) : P (seeds.foldl (plant T) p).1 := by
  induction seeds generalizing p with
  | nil => exact h
  | cons seed seeds ih =>
    cases seed with
    | later k => exact @ih (p.1, k :: p.2) h
    | now k => exact ih (visit_preserves T hmark p.2 k h)

end Preserved

section Termination

/-- The references that can still be pushed, given the nodes of the graph. -/
def pending (s : σ) (nodes : List ν) : Nat :=
  (nodes.map fun n => if T.isMarked s n then 0 else (T.children s n).length).sum

/-- An upper bound of the visits a trace makes. -/
def bound (s : σ) (nodes : List ν) (work : List κ) : Nat :=
  work.length + pending T s nodes

theorem pending_mark_le {s : σ} {k : κ} {n : ν} (hk : T.node s k = some n) (nodes : List ν) :
    pending T (T.mark s n) nodes ≤ pending T s nodes := by
  induction nodes with
  | nil => exact Nat.le_refl _
  | cons m nodes ih =>
    simp only [pending, List.map_cons, List.sum_cons, T.children_mark] at ih ⊢
    refine Nat.add_le_add ?_ ih
    by_cases hm : T.isMarked s m = true
    · simp [hm, (T.isMarked_mark s k n hk m).mpr (.inr hm)]
    · simp only [hm]
      split <;> simp

theorem pending_mark {s : σ} {k : κ} {n : ν} {nodes : List ν} (hk : T.node s k = some n)
    (hn : n ∈ nodes) (hm : T.isMarked s n ≠ true) :
    pending T (T.mark s n) nodes + (T.children s n).length ≤ pending T s nodes := by
  induction nodes with
  | nil => cases hn
  | cons m nodes ih =>
    have hle := pending_mark_le T hk nodes
    simp only [pending, List.map_cons, List.sum_cons, T.children_mark] at ih hle ⊢
    by_cases he : m = n
    · subst he
      simp only [(T.isMarked_mark s k m hk m).mpr (.inl rfl), ↓reduceIte, hm]
      simp only [Bool.false_eq_true, ↓reduceIte]
      omega
    · have hmem : n ∈ nodes := by
        cases List.mem_cons.mp hn with
        | inl h => exact absurd h.symm he
        | inr h => exact h
      have hrest := ih hmem
      have hsame : (T.isMarked (T.mark s n) m = true) ↔ T.isMarked s m = true := by
        rw [T.isMarked_mark s k n hk]
        exact ⟨fun h => h.resolve_left he, .inr⟩
      simp only [hsame]
      omega

theorem bound_visit {s : σ} {nodes : List ν} {work : List κ} {k : κ}
    (hk : ∀ n, T.node s k = some n → n ∈ nodes) :
    bound T (visit T s work k).1 nodes (visit T s work k).2 < bound T s nodes (k :: work) := by
  unfold visit bound
  cases hn : T.node s k with
  | none => simp
  | some n =>
    simp only [expand]
    by_cases hm : T.isMarked s n = true
    · simp [hm]
    · have hdrop := pending_mark T hn (hk n hn) hm
      simp only [hm, Bool.false_eq_true, ↓reduceIte, List.length_append, List.length_reverse,
        List.length_cons]
      omega

/-- Fuel of at least the bound drains the worklist, when every reference of the
graph denotes one of the listed nodes. -/
theorem drain_done {fuel : Nat} {s : σ} {nodes : List ν} {work : List κ}
    (hnodes : ∀ k n, T.node s k = some n → n ∈ nodes) (hfuel : bound T s nodes work ≤ fuel) :
    (drain T fuel s work).2 = [] := by
  induction fuel generalizing s work with
  | zero =>
    cases work with
    | nil => rfl
    | cons k work => simp [bound] at hfuel
  | succ fuel ih =>
    cases work with
    | nil => rfl
    | cons k work =>
      refine @ih (visit T s work k).1 (visit T s work k).2 ?_ ?_
      · intro j n hj
        rw [(sameGraph_visit T s work k).node] at hj
        exact hnodes j n hj
      · have := @bound_visit _ _ _ T s nodes work k (hnodes k)
        omega

end Termination

end Aer.Lib.Tracing
