import Mathlib.Data.List.Chain
import Mathlib.Logic.Function.Basic

/-!
# Rings of doubly linked nodes

A heap gives every node of a type `N` two nullable pointers. A *ring* is a sequence of distinct
nodes hanging off an anchor and closed back onto it: the representation of a circular list with a
sentinel. The two surgeries on rings are `IsRing.splice` (a node goes in between two neighbours)
and `IsRing.unsplice` (a node comes out). Both are stated by what the new heap's `next` and `prev`
fields read, so that any sequence of pointer writes with that effect can use them, and both leave
every ring that does not meet the written nodes alone (`IsRing.frame`).
-/

namespace CustLib.Linked

/-! ## Heaps

Pointers are optional nodes, and a heap is total: every node has two pointers, whatever is in them.
`setNext` and `setPrev` write one of them.
-/

/-- The two pointers of a node; `none` is the null pointer. -/
structure Links (N : Type*) where
  next : Option N
  prev : Option N
  deriving DecidableEq, Repr

abbrev Heap (N : Type*) := N → Links N

variable {N : Type*} [DecidableEq N]

def Heap.setNext (h : Heap N) (x : N) (v : Option N) : Heap N :=
  Function.update h x { h x with next := v }

def Heap.setPrev (h : Heap N) (x : N) (v : Option N) : Heap N :=
  Function.update h x { h x with prev := v }

@[simp] theorem next_setNext (h : Heap N) (x y : N) (v : Option N) :
    (h.setNext x v y).next = if y = x then v else (h y).next := by
  unfold Heap.setNext
  by_cases hy : y = x
  · subst hy; simp
  · simp [hy]

@[simp] theorem prev_setNext (h : Heap N) (x y : N) (v : Option N) :
    (h.setNext x v y).prev = (h y).prev := by
  unfold Heap.setNext
  by_cases hy : y = x
  · subst hy; simp
  · simp [hy]

@[simp] theorem next_setPrev (h : Heap N) (x y : N) (v : Option N) :
    (h.setPrev x v y).next = (h y).next := by
  unfold Heap.setPrev
  by_cases hy : y = x
  · subst hy; simp
  · simp [hy]

@[simp] theorem prev_setPrev (h : Heap N) (x y : N) (v : Option N) :
    (h.setPrev x v y).prev = if y = x then v else (h y).prev := by
  unfold Heap.setPrev
  by_cases hy : y = x
  · subst hy; simp
  · simp [hy]

/-! ## Adjacency and rings

A ring is a chain of adjacent nodes from the anchor back to itself. Cut open at any node it is a chain
that starts and ends there, which is how the surgery below gets hold of the neighbours.
-/

/-- `u` is directly followed by `v`: each points at the other. -/
def Adj (h : Heap N) (u v : N) : Prop := (h u).next = some v ∧ (h v).prev = some u

/-- The nodes of `L`, in this order, hang off the anchor `a` and close back onto it. -/
structure IsRing (h : Heap N) (a : N) (L : List N) : Prop where
  nodup : (a :: L).Nodup
  chain : (a :: (L ++ [a])).IsChain (Adj h)

section
omit [DecidableEq N]

/-- The empty ring is an anchor that points at itself. -/
theorem isRing_nil_iff {h : Heap N} {a : N} :
    IsRing h a [] ↔ (h a).next = some a ∧ (h a).prev = some a := by
  constructor
  · intro hr
    have hadj : Adj h a a := List.isChain_pair.mp hr.chain
    exact hadj
  · intro hadj
    exact ⟨by simp, List.isChain_pair.mpr hadj⟩

theorem getLast?_cons_concat (a x : N) (L : List N) : (a :: (L ++ [x])).getLast? = some x := by
  rw [← List.cons_append, List.getLast?_concat]

theorem mem_ring_of_getLast? {a p : N} {L₁ : List N} (L₂ : List N)
    (hp : (a :: L₁).getLast? = some p) : p ∈ a :: (L₁ ++ L₂) := by
  have := List.mem_of_getLast? hp
  simp only [List.mem_cons, List.mem_append] at this ⊢
  tauto

theorem mem_ring_of_head? {a n : N} (L₁ : List N) {L₂ : List N}
    (hn : (L₂ ++ [a]).head? = some n) : n ∈ a :: (L₁ ++ L₂) := by
  have := List.mem_of_head? hn
  simp only [List.mem_cons, List.mem_append, List.not_mem_nil, or_false] at this ⊢
  tauto

theorem perm_ring_middle (a x : N) (L₁ L₂ : List N) :
    (a :: (L₁ ++ x :: L₂)).Perm (x :: (a :: (L₁ ++ L₂))) := by
  show ((a :: L₁) ++ x :: L₂).Perm (x :: ((a :: L₁) ++ L₂))
  exact List.perm_middle

/-- A node of a ring occurs in it once. -/
theorem IsRing.notMem_rest {h : Heap N} {a x : N} {L₁ L₂ : List N}
    (hr : IsRing h a (L₁ ++ x :: L₂)) : x ∉ a :: (L₁ ++ L₂) :=
  (List.nodup_cons.mp ((perm_ring_middle a x L₁ L₂).nodup_iff.mp hr.nodup)).1

/-- A ring is cut between two neighbours: `p` ends the part up to `L₁`, `n` starts the rest. -/
theorem isRing_cut {h : Heap N} {a p n : N} {L₁ L₂ : List N}
    (hr : IsRing h a (L₁ ++ L₂)) (hp : (a :: L₁).getLast? = some p)
    (hn : (L₂ ++ [a]).head? = some n) :
    (a :: L₁).IsChain (Adj h) ∧ Adj h p n ∧ (L₂ ++ [a]).IsChain (Adj h) := by
  have hc : ((a :: L₁) ++ (L₂ ++ [a])).IsChain (Adj h) := by
    simpa [List.append_assoc] using hr.chain
  obtain ⟨h₁, h₂, hadj⟩ := List.isChain_append.mp hc
  exact ⟨h₁, hadj p hp n hn, h₂⟩

/-- The converse of `isRing_cut`: two halves and the edge between them make a ring. -/
theorem isRing_of_cut {h : Heap N} {a p n : N} {L₁ L₂ : List N}
    (hnd : (a :: (L₁ ++ L₂)).Nodup) (hp : (a :: L₁).getLast? = some p)
    (hn : (L₂ ++ [a]).head? = some n) (h₁ : (a :: L₁).IsChain (Adj h)) (hadj : Adj h p n)
    (h₂ : (L₂ ++ [a]).IsChain (Adj h)) : IsRing h a (L₁ ++ L₂) := by
  refine ⟨hnd, ?_⟩
  have hc : ((a :: L₁) ++ (L₂ ++ [a])).IsChain (Adj h) := by
    refine List.isChain_append.mpr ⟨h₁, h₂, ?_⟩
    intro u hu v hv
    rw [hp] at hu
    rw [hn] at hv
    cases hu
    cases hv
    exact hadj
  simpa [List.append_assoc] using hc

/-- **Frame rule.** A ring depends on the pointers of its own nodes only. -/
theorem IsRing.frame {h h' : Heap N} {a : N} {L : List N} (hr : IsRing h a L)
    (hsame : ∀ n ∈ a :: L, h' n = h n) : IsRing h' a L := by
  refine ⟨hr.nodup, ?_⟩
  have hmem : ∀ n, n ∈ a :: (L ++ [a]) → n ∈ a :: L := by
    intro n hn
    simpa [or_comm, or_left_comm] using hn
  apply hr.chain.imp_of_mem_imp
  intro u v hu hv hadj
  exact ⟨by rw [hsame u (hmem u hu)]; exact hadj.1, by rw [hsame v (hmem v hv)]; exact hadj.2⟩

/-- The node after the anchor is the first node of the sequence, or the anchor itself. -/
theorem IsRing.next_anchor {h : Heap N} {a : N} {L : List N} (hr : IsRing h a L) :
    (h a).next = (L ++ [a]).head? := by
  obtain ⟨n, hn⟩ : ∃ n, (L ++ [a]).head? = some n := by
    cases L <;> exact ⟨_, rfl⟩
  have hr' : IsRing h a ([] ++ L) := hr
  have hcut := isRing_cut (p := a) hr' rfl hn
  rw [hn]
  exact hcut.2.1.1

/-- The node before the anchor is the last node of the sequence, or the anchor itself. -/
theorem IsRing.prev_anchor {h : Heap N} {a : N} {L : List N} (hr : IsRing h a L) :
    (h a).prev = (a :: L).getLast? := by
  obtain ⟨p, hp⟩ : ∃ p, (a :: L).getLast? = some p := ⟨_, List.getLast?_eq_some_getLast (by simp)⟩
  have hr' : IsRing h a (L ++ []) := by simpa using hr
  have hcut := isRing_cut (n := a) hr' hp rfl
  rw [hp]
  exact hcut.2.1.2

/-- The neighbours of a node of a ring. -/
theorem IsRing.next_mem {h : Heap N} {a x : N} {L₁ L₂ : List N}
    (hr : IsRing h a (L₁ ++ x :: L₂)) : (h x).next = (L₂ ++ [a]).head? := by
  obtain ⟨n, hn⟩ : ∃ n, (L₂ ++ [a]).head? = some n := by
    cases L₂ <;> exact ⟨_, rfl⟩
  have hr' : IsRing h a ((L₁ ++ [x]) ++ L₂) := by simpa using hr
  have hcut := isRing_cut (p := x) hr' (getLast?_cons_concat a x L₁) hn
  rw [hn]
  exact hcut.2.1.1

theorem IsRing.prev_mem {h : Heap N} {a x : N} {L₁ L₂ : List N}
    (hr : IsRing h a (L₁ ++ x :: L₂)) : (h x).prev = (a :: L₁).getLast? := by
  obtain ⟨p, hp⟩ : ∃ p, (a :: L₁).getLast? = some p := ⟨_, List.getLast?_eq_some_getLast (by simp)⟩
  have hcut := isRing_cut (n := x) hr hp (by simp)
  rw [hp]
  exact hcut.2.1.2

/-- A ring is empty iff its anchor points at itself. -/
theorem IsRing.next_eq_anchor_iff {h : Heap N} {a : N} {L : List N} (hr : IsRing h a L) :
    (h a).next = some a ↔ L = [] := by
  rw [hr.next_anchor]
  cases L with
  | nil => simp
  | cons x L =>
      have hxa : x ≠ a := by
        intro hxa
        have := hr.nodup
        simp [hxa] at this
      simp [hxa]

/-- An edge of a ring survives when neither the `next` pointer of its source nor the `prev`
    pointer of its target is written. -/
theorem IsChain.keep {h h' : Heap N} {p n : N} {l : List N} (hc : l.IsChain (Adj h))
    (hpn : Adj h p n) (hn : n ∉ l.tail)
    (hnext : ∀ u ∈ l, u ≠ p → (h' u).next = (h u).next)
    (hprev : ∀ v ∈ l.tail, (h' v).prev = (h v).prev) : l.IsChain (Adj h') := by
  apply hc.imp_of_mem_tail_imp
  intro u v hu hv hadj
  have hvn : v ≠ n := fun he => hn (he ▸ hv)
  have hup : u ≠ p := by
    -- the `next` pointer of `p` leads to `n`, which is not the target of this edge
    rintro rfl
    have hvn' : some v = some n := hadj.1.symm.trans hpn.1
    exact hvn (Option.some.inj hvn')
  exact ⟨by rw [hnext u hu hup]; exact hadj.1, by rw [hprev v hv]; exact hadj.2⟩

end

/-! ## Surgery

Both operations change the pointers of at most three nodes. Distinctness of the ring is what makes the
writes independent of each other.
-/

section
omit [DecidableEq N]

/-- The node that ends the first part of a cut ring does not start the second one. -/
theorem IsRing.head_notMem {h : Heap N} {a n : N} {L₁ L₂ : List N}
    (hr : IsRing h a (L₁ ++ L₂)) (hn : (L₂ ++ [a]).head? = some n) :
    n ∉ L₁ ∧ n ∉ (L₂ ++ [a]).tail := by
  have hnd := hr.nodup
  cases L₂ with
  | nil =>
      simp only [List.nil_append, List.head?_cons, Option.some.injEq] at hn
      subst hn
      simp only [List.append_nil, List.nodup_cons] at hnd
      exact ⟨hnd.1, by simp⟩
  | cons y L₂ =>
      simp only [List.cons_append, List.head?_cons, Option.some.injEq] at hn
      subst hn
      simp only [List.nodup_cons, List.mem_append, List.mem_cons, not_or, List.nodup_append] at hnd
      obtain ⟨⟨_, hay, _⟩, _, ⟨hyL, _⟩, hdisj⟩ := hnd
      refine ⟨fun hmem => hdisj y hmem y (by simp) rfl, ?_⟩
      simp only [List.cons_append, List.tail_cons, List.mem_append, List.mem_singleton, not_or]
      exact ⟨hyL, fun he => hay he.symm⟩

/-- A node outside of a ring is in neither half of it. -/
theorem ne_of_notMem_ring {a x : N} {L₁ L₂ : List N} (hx : x ∉ a :: (L₁ ++ L₂)) :
    (∀ u ∈ a :: L₁, u ≠ x) ∧ ∀ u ∈ L₂ ++ [a], u ≠ x := by
  constructor
  · rintro u hu rfl
    apply hx
    simp only [List.mem_cons, List.mem_append] at hu ⊢
    tauto
  · rintro u hu rfl
    apply hx
    simp only [List.mem_cons, List.mem_append, List.not_mem_nil, or_false] at hu ⊢
    tauto

/-- **Splice.** `x` goes in between the neighbours `p` and `n`. -/
theorem IsRing.splice {h h' : Heap N} {a x p n : N} {L₁ L₂ : List N}
    (hr : IsRing h a (L₁ ++ L₂)) (hx : x ∉ a :: (L₁ ++ L₂))
    (hp : (a :: L₁).getLast? = some p) (hn : (L₂ ++ [a]).head? = some n)
    (hpx : Adj h' p x) (hxn : Adj h' x n)
    (hnext : ∀ u, u ≠ p → u ≠ x → (h' u).next = (h u).next)
    (hprev : ∀ v, v ≠ n → v ≠ x → (h' v).prev = (h v).prev) : IsRing h' a (L₁ ++ x :: L₂) := by
  obtain ⟨h₁, hpn, h₂⟩ := isRing_cut hr hp hn
  obtain ⟨hnL₁, hntail⟩ := hr.head_notMem hn
  obtain ⟨hx₁, hx₂⟩ := ne_of_notMem_ring hx
  have hnd : (a :: (L₁ ++ x :: L₂)).Nodup :=
    (perm_ring_middle a x L₁ L₂).nodup_iff.mpr (List.nodup_cons.mpr ⟨hx, hr.nodup⟩)
  refine isRing_of_cut (p := p) (n := x) hnd hp (by simp) ?_ hpx ?_
  · refine IsChain.keep h₁ hpn hnL₁ (fun u hu hup => hnext u hup (hx₁ u hu)) fun v hv => ?_
    exact hprev v (fun he => hnL₁ (he ▸ hv)) (hx₁ v (List.mem_of_mem_tail hv))
  · have hkeep : (L₂ ++ [a]).IsChain (Adj h') := by
      refine IsChain.keep h₂ hpn hntail (fun u hu hup => hnext u hup (hx₂ u hu)) fun v hv => ?_
      exact hprev v (fun he => hntail (he ▸ hv)) (hx₂ v (List.mem_of_mem_tail hv))
    apply hkeep.cons
    intro y hy
    rw [hn] at hy
    cases hy
    exact hxn

/-- **Unsplice.** `x` comes out, and its neighbours `p` and `n` are joined. -/
theorem IsRing.unsplice {h h' : Heap N} {a x p n : N} {L₁ L₂ : List N}
    (hr : IsRing h a (L₁ ++ x :: L₂))
    (hp : (a :: L₁).getLast? = some p) (hn : (L₂ ++ [a]).head? = some n)
    (hpn : Adj h' p n)
    (hnext : ∀ u, u ≠ p → u ≠ x → (h' u).next = (h u).next)
    (hprev : ∀ v, v ≠ n → v ≠ x → (h' v).prev = (h v).prev) : IsRing h' a (L₁ ++ L₂) := by
  have hr' : IsRing h a ((L₁ ++ [x]) ++ L₂) := by simpa using hr
  obtain ⟨h₁, hpx, -⟩ := isRing_cut (n := x) hr hp (by simp)
  obtain ⟨-, hxn, h₂⟩ := isRing_cut (p := x) hr' (getLast?_cons_concat a x L₁) hn
  -- `n` comes once in the ring, behind `x`
  obtain ⟨hnL₁, hntail⟩ := hr'.head_notMem hn
  obtain ⟨hx, hnd⟩ := List.nodup_cons.mp ((perm_ring_middle a x L₁ L₂).nodup_iff.mp hr.nodup)
  obtain ⟨hx₁, hx₂⟩ := ne_of_notMem_ring hx
  refine isRing_of_cut hnd hp hn ?_ hpn ?_
  · -- `p` leads to `x`, which is in neither half
    have hxL₁ : x ∉ L₁ := fun hmem => hx₁ x (List.mem_cons_of_mem a hmem) rfl
    refine IsChain.keep h₁ hpx hxL₁ (fun u hu hup => hnext u hup (hx₁ u hu)) fun v hv => ?_
    have hvL₁ : v ∈ L₁ := hv
    exact hprev v (fun he => hnL₁ (by simp [← he, hvL₁])) (hx₁ v (List.mem_of_mem_tail hv))
  · have hxL₂ : x ∉ (L₂ ++ [a]).tail := fun hmem => hx₂ x (List.mem_of_mem_tail hmem) rfl
    refine IsChain.keep h₂ hpx hxL₂ (fun u hu hup => hnext u hup (hx₂ u hu)) fun v hv => ?_
    exact hprev v (fun he => hntail (he ▸ hv)) (hx₂ v (List.mem_of_mem_tail hv))

end

/-! ## Walks

A program goes around a ring with a cursor, in either direction, until it is back at the anchor. The
walk visits the nodes of the ring in order and needs as many steps as there are nodes, and one more.
-/

section

/-- The node `x` is met on the way along the `next` pointers from `a`. -/
def Reaches (h : Heap N) (a x : N) : Prop :=
  Relation.ReflTransGen (fun u v => (h u).next = some v) a x

omit [DecidableEq N] in
/-- From the anchor of a ring the `next` pointers reach the nodes of the ring and no others. -/
theorem IsRing.reaches_iff {h : Heap N} {a x : N} {L : List N} (hr : IsRing h a L) :
    Reaches h a x ↔ x ∈ a :: L := by
  constructor
  · intro hx
    induction hx with
    | refl => exact List.mem_cons_self
    | @tail u v _ huv hu =>
        rcases List.mem_cons.mp hu with rfl | hu
        · rw [hr.next_anchor] at huv
          have hmem := List.mem_of_mem_head? huv
          simpa [or_comm] using hmem
        · obtain ⟨L₁, L₂, rfl⟩ := List.append_of_mem hu
          rw [hr.next_mem] at huv
          have hmem := List.mem_of_mem_head? huv
          grind
  · intro hx
    have hedge : ((a :: L) ++ [a]).IsChain (fun u v => (h u).next = some v) :=
      hr.chain.imp fun u v huv => huv.1
    exact List.IsChain.induction (Reaches h a) (a :: L) hedge.left_of_append
      (fun u v huv hu => hu.tail huv) (fun _ => .refl) x hx

/-- The walk `for (p = start; p != anchor; p = f p)`, collecting the visited nodes. `none` is a
    null pointer, or a walk that has not come back to the anchor within the fuel. -/
def walk (f : N → Option N) (a : N) : Nat → Option N → Option (List N)
  | 0,     _      => none
  | _,     none   => none
  | k + 1, some p => if p = a then some [] else (walk f a k (f p)).map (p :: ·)

/-- A walk along a chain of `f`-edges visits exactly the chain. -/
theorem walk_chain {f : N → Option N} {a : N} {L : List N} (ha : a ∉ L)
    (hc : (L ++ [a]).IsChain (fun u v => f u = some v)) {k : Nat} (hk : L.length < k) :
    walk f a k (L ++ [a]).head? = some L := by
  induction L generalizing k with
  | nil =>
      obtain ⟨k, rfl⟩ : ∃ m, k = m + 1 := ⟨k - 1, by simp at hk; omega⟩
      simp [walk]
  | cons x L ih =>
      obtain ⟨k, rfl⟩ : ∃ m, k = m + 1 := ⟨k - 1, by simp at hk; omega⟩
      simp only [List.mem_cons, not_or] at ha
      simp only [List.length_cons] at hk
      have hfx : f x = (L ++ [a]).head? := by
        cases L with
        | nil => simpa using hc
        | cons y L => simpa using (List.isChain_cons_cons.mp hc).1
      have hrec := ih ha.2 hc.tail (k := k) (by omega)
      simp only [List.cons_append, List.head?_cons, walk, Ne.symm ha.1, if_false]
      rw [hfx, hrec]
      rfl

/-- The forward walk from the anchor of a ring visits the sequence. -/
theorem IsRing.walk_next {h : Heap N} {a : N} {L : List N} (hr : IsRing h a L) {k : Nat}
    (hk : L.length < k) : walk (fun u => (h u).next) a k (h a).next = some L := by
  rw [hr.next_anchor]
  have hc : (L ++ [a]).IsChain (Adj h) := hr.chain.tail
  exact walk_chain (List.nodup_cons.mp hr.nodup).1 (hc.imp fun u v huv => huv.1) hk

/-- The backward walk visits its reverse. -/
theorem IsRing.walk_prev {h : Heap N} {a : N} {L : List N} (hr : IsRing h a L) {k : Nat}
    (hk : L.length < k) : walk (fun u => (h u).prev) a k (h a).prev = some L.reverse := by
  have hlast : (h a).prev = (L.reverse ++ [a]).head? := by
    rw [hr.prev_anchor, ← List.reverse_cons, List.head?_reverse]
  have hc : ((a :: L).reverse).IsChain (fun u v => (h u).prev = some v) := by
    rw [List.isChain_reverse]
    have hc' : (a :: L).IsChain (Adj h) := by
      have := hr.chain
      rw [← List.cons_append] at this
      exact this.left_of_append
    exact hc'.imp fun u v huv => huv.2
  rw [hlast]
  refine walk_chain ?_ (by simpa using hc) (by simpa using hk)
  simpa using (List.nodup_cons.mp hr.nodup).1

end

end CustLib.Linked
