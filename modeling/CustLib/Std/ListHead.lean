import CustLib.Lib.Machine
import CustLib.Lib.Ring

/-!
# `std::list`: the intrusive doubly linked list

`std_list_head` is a pair of pointers, and a list is an anchor whose pointers lead around a ring of
nodes and back. The functions below are the pointer writes of the source, in its order; a function
that dereferences a null pointer is `none`.

* `add_spec`, `addTail_spec`, `del_spec`, `delInit_spec` say what each does to a ring.
* `Step` is the abstract list heap: a partial map from anchors to sequences, and what each operation
  does to it under the preconditions the source documents.
* `std_list_refines_sequences` ties the two together over whole runs.
-/

namespace CustLib.ListHead

open CustLib.Linked

variable {N : Type*} [DecidableEq N]

/-! ## The operations

`std_list_init`, `std_list_is_empty`, `std_list_add`, `std_list_add_tail`, `std_list_del` and
`std_list_del_init`, with the two static helpers that they share. A null pointer that is followed gives
`none`.
-/

/-- `std_list_init`: both pointers reference the head itself. -/
def init (h : Heap N) (x : N) : Heap N :=
  (h.setNext x (some x)).setPrev x (some x)

def isEmpty (h : Heap N) (x : N) : Bool := (h x).next = some x

/-- `list_link`: splice `new` between `prev` and `next`. -/
def listLink (h : Heap N) (new prev next : N) : Heap N :=
  let h₁ := h.setNext new (some next)
  let h₂ := h₁.setPrev new (some prev)
  let h₃ := h₂.setPrev next (some new)
  h₃.setNext prev (some new)

def add (h : Heap N) (new head : N) : Option (Heap N) :=
  (h head).next.map fun next => listLink h new head next

/-- `std_list_add_tail`: insert `new` before `head`. -/
def addTail (h : Heap N) (new head : N) : Option (Heap N) :=
  (h head).prev.map fun prev => listLink h new prev head

/-- The two writes that `std_list_del` and `std_list_del_init` begin with:
    `node->prev->next = node->next; node->next->prev = node->prev`. -/
def unlink (h : Heap N) (node : N) : Option (Heap N) :=
  (h node).prev.bind fun prev =>
    let h₁ := h.setNext prev (h node).next
    (h₁ node).next.map fun next => h₁.setPrev next (h₁ node).prev

/-- `std_list_del`: unlink `node` and null its pointers. -/
def del (h : Heap N) (node : N) : Option (Heap N) :=
  (unlink h node).map fun h' => (h'.setNext node none).setPrev node none

/-- `std_list_del_init`: unlink `node` and leave it self-referential. -/
def delInit (h : Heap N) (node : N) : Option (Heap N) :=
  (unlink h node).map fun h' => init h' node

/-! ## What they do to a ring

The pointer writes as surgery on a ring: `add` and `add_tail` splice a node in, `del` and `del_init`
take one out. Each lemma says what ring there is afterwards, and that no other node was written.
-/

theorem init_spec (h : Heap N) (x : N) :
    IsRing (init h x) x [] ∧ ∀ n, n ≠ x → init h x n = h n := by
  refine ⟨isRing_nil_iff.mpr (by simp [init]), ?_⟩
  intro n hn
  simp [init, Heap.setNext, Heap.setPrev, hn]

theorem isEmpty_iff {h : Heap N} {a : N} {L : List N} (hr : IsRing h a L) :
    isEmpty h a = true ↔ L = [] := by
  simp [isEmpty, hr.next_eq_anchor_iff]

/-- Linking `x` between two neighbours of a ring puts it there, and writes `x` and the two
    neighbours only. -/
theorem listLink_spec {h : Heap N} {a x p n : N} {L₁ L₂ : List N}
    (hr : IsRing h a (L₁ ++ L₂)) (hx : x ∉ a :: (L₁ ++ L₂))
    (hp : (a :: L₁).getLast? = some p) (hn : (L₂ ++ [a]).head? = some n) :
    IsRing (listLink h x p n) a (L₁ ++ x :: L₂) ∧
      ∀ y, y ∉ a :: (L₁ ++ L₂) → y ≠ x → listLink h x p n y = h y := by
  have hpm : p ∈ a :: (L₁ ++ L₂) := mem_ring_of_getLast? L₂ hp
  have hnm : n ∈ a :: (L₁ ++ L₂) := mem_ring_of_head? L₁ hn
  have hxp : x ≠ p := fun he => hx (he ▸ hpm)
  have hxn : x ≠ n := fun he => hx (he ▸ hnm)
  constructor
  · refine hr.splice hx hp hn ?_ ?_ ?_ ?_
    · simp [Adj, listLink, hxn]
    · simp [Adj, listLink, hxp]
    · intro u hup hux
      simp [listLink, hup, hux]
    · intro v hvn hvx
      simp [listLink, hvn, hvx]
  · intro y hy hyx
    have hyp : y ≠ p := fun he => hy (he ▸ hpm)
    have hyn : y ≠ n := fun he => hy (he ▸ hnm)
    simp [listLink, Heap.setNext, Heap.setPrev, hyp, hyn, hyx]

/-- `add` puts `x` right after `p`. -/
theorem add_spec {h : Heap N} {a x p : N} {L₁ L₂ : List N}
    (hr : IsRing h a (L₁ ++ L₂)) (hx : x ∉ a :: (L₁ ++ L₂)) (hp : (a :: L₁).getLast? = some p) :
    ∃ h', add h x p = some h' ∧ IsRing h' a (L₁ ++ x :: L₂) ∧
      ∀ y, y ∉ a :: (L₁ ++ L₂) → y ≠ x → h' y = h y := by
  obtain ⟨n, hn⟩ : ∃ n, (L₂ ++ [a]).head? = some n := by
    cases L₂ <;> exact ⟨_, rfl⟩
  have hnext : (h p).next = some n := (isRing_cut hr hp hn).2.1.1
  obtain ⟨hring, hframe⟩ := listLink_spec hr hx hp hn
  exact ⟨listLink h x p n, by simp [add, hnext], hring, hframe⟩

/-- `addTail` puts `x` right before `n`. -/
theorem addTail_spec {h : Heap N} {a x n : N} {L₁ L₂ : List N}
    (hr : IsRing h a (L₁ ++ L₂)) (hx : x ∉ a :: (L₁ ++ L₂)) (hn : (L₂ ++ [a]).head? = some n) :
    ∃ h', addTail h x n = some h' ∧ IsRing h' a (L₁ ++ x :: L₂) ∧
      ∀ y, y ∉ a :: (L₁ ++ L₂) → y ≠ x → h' y = h y := by
  obtain ⟨p, hp⟩ : ∃ p, (a :: L₁).getLast? = some p :=
    ⟨_, List.getLast?_eq_some_getLast (by simp)⟩
  have hprev : (h n).prev = some p := (isRing_cut hr hp hn).2.1.2
  obtain ⟨hring, hframe⟩ := listLink_spec hr hx hp hn
  exact ⟨listLink h x p n, by simp [addTail, hprev], hring, hframe⟩

/-- `unlink` joins the neighbours of `x`. It leaves the pointers of `x` itself alone, and writes
    no node outside the ring. -/
theorem unlink_spec {h : Heap N} {a x : N} {L₁ L₂ : List N} (hr : IsRing h a (L₁ ++ x :: L₂)) :
    ∃ h', unlink h x = some h' ∧ IsRing h' a (L₁ ++ L₂) ∧
      ∀ y, y ∉ a :: (L₁ ++ L₂) → h' y = h y := by
  obtain ⟨p, hp⟩ : ∃ p, (a :: L₁).getLast? = some p :=
    ⟨_, List.getLast?_eq_some_getLast (by simp)⟩
  obtain ⟨n, hn⟩ : ∃ n, (L₂ ++ [a]).head? = some n := by
    cases L₂ <;> exact ⟨_, rfl⟩
  have hprev : (h x).prev = some p := by rw [hr.prev_mem, hp]
  have hnext : (h x).next = some n := by rw [hr.next_mem, hn]
  have hpm : p ∈ a :: (L₁ ++ L₂) := mem_ring_of_getLast? L₂ hp
  have hnm : n ∈ a :: (L₁ ++ L₂) := mem_ring_of_head? L₁ hn
  have hun : unlink h x = some ((h.setNext p (some n)).setPrev n (some p)) := by
    simp [unlink, hprev, hnext]
  refine ⟨_, hun, hr.unsplice hp hn ?_ ?_ ?_, ?_⟩
  · simp [Adj]
  · intro u hup _
    simp [hup]
  · intro v hvn _
    simp [hvn]
  · intro y hy
    have hyp : y ≠ p := fun he => hy (he ▸ hpm)
    have hyn : y ≠ n := fun he => hy (he ▸ hnm)
    simp [Heap.setNext, Heap.setPrev, hyp, hyn]

/-- `del` takes `x` out of its ring and nulls its pointers. -/
theorem del_spec {h : Heap N} {a x : N} {L₁ L₂ : List N} (hr : IsRing h a (L₁ ++ x :: L₂)) :
    ∃ h', del h x = some h' ∧ IsRing h' a (L₁ ++ L₂) ∧ h' x = ⟨none, none⟩ ∧
      ∀ y, y ∉ a :: (L₁ ++ x :: L₂) → h' y = h y := by
  obtain ⟨h₁, hun, hring, hframe⟩ := unlink_spec hr
  have hx : x ∉ a :: (L₁ ++ L₂) := hr.notMem_rest
  have hother : ∀ y, y ≠ x → (h₁.setNext x none).setPrev x none y = h₁ y := by
    intro y hyx
    simp [Heap.setNext, Heap.setPrev, hyx]
  refine ⟨_, by rw [del, hun]; rfl,
    hring.frame fun y hy => hother y (fun he => hx (he ▸ hy)), ?_, ?_⟩
  · simp [Heap.setNext, Heap.setPrev]
  · intro y hy
    have hyx : y ∉ x :: a :: (L₁ ++ L₂) := fun hmem =>
      hy ((perm_ring_middle a x L₁ L₂).mem_iff.mpr hmem)
    rw [List.mem_cons, not_or] at hyx
    rw [hother y hyx.1, hframe y hyx.2]

/-- `delInit` takes `x` out of its ring and leaves it an empty ring of its own. -/
theorem delInit_spec {h : Heap N} {a x : N} {L₁ L₂ : List N} (hr : IsRing h a (L₁ ++ x :: L₂)) :
    ∃ h', delInit h x = some h' ∧ IsRing h' a (L₁ ++ L₂) ∧ IsRing h' x [] ∧
      ∀ y, y ∉ a :: (L₁ ++ x :: L₂) → h' y = h y := by
  obtain ⟨h₁, hun, hring, hframe⟩ := unlink_spec hr
  have hx : x ∉ a :: (L₁ ++ L₂) := hr.notMem_rest
  obtain ⟨hself, hother⟩ := init_spec h₁ x
  refine ⟨_, by rw [delInit, hun]; rfl,
    hring.frame fun y hy => hother y (fun he => hx (he ▸ hy)), hself, ?_⟩
  intro y hy
  have hyx : y ∉ x :: a :: (L₁ ++ L₂) := fun hmem =>
      hy ((perm_ring_middle a x L₁ L₂).mem_iff.mpr hmem)
  rw [List.mem_cons, not_or] at hyx
  rw [hother y hyx.1, hframe y hyx.2]

/-- `delInit` on a self-linked node changes nothing. -/
theorem delInit_self {h : Heap N} {x : N} (hr : IsRing h x []) : delInit h x = some h := by
  obtain ⟨hnext, hprev⟩ := isRing_nil_iff.mp hr
  have hself : h.setNext x (some x) = h := by
    unfold Heap.setNext
    rw [← hnext]
    simp
  have hself' : h.setPrev x (some x) = h := by
    unfold Heap.setPrev
    rw [← hprev]
    simp
  simp [delInit, unlink, init, hprev, hnext, hself, hself']

/-! ## The abstract list heap

A list is named by its anchor, and holds a sequence of nodes. `Step` has the preconditions of `list.c`:
a node that is added is in no list, and one that is deleted is in some.
-/

inductive Op (N : Type*) where
  | init (x : N)
  | add (new head : N)
  | addTail (new head : N)
  | del (node : N)
  | delInit (node : N)
  deriving DecidableEq, Repr

def exec (h : Heap N) : Op N → Option (Heap N)
  | .init x           => some (init h x)
  | .add new head     => add h new head
  | .addTail new head => addTail h new head
  | .del node         => del h node
  | .delInit node     => delInit h node

/-- The lists of a heap: the sequence of every node that is an anchor, and `none` for the others
    (members of some sequence, and nodes that are fresh or were deleted). -/
abbrev Lists (N : Type*) := N → Option (List N)

section
omit [DecidableEq N]

/-- `x` is in no list: it is fresh, deleted, or an anchor with nothing in its list. -/
def Unlinked (A : Lists N) (x : N) : Prop :=
  (A x = none ∨ A x = some []) ∧ ∀ a L, A a = some L → x ∉ L

/-- `n` is on the same ring as `p`. -/
def InRing (A : Lists N) (p n : N) : Prop := ∃ a L, A a = some L ∧ p ∈ a :: L ∧ n ∈ a :: L

/-- The nodes an operation may write: the node it is about, and the ring it works on. -/
def Touched (A : Lists N) : Op N → N → Prop
  | .init x,      n => n = x
  | .add x p,     n => n = x ∨ InRing A p n
  | .addTail x p, n => n = x ∨ InRing A p n
  | .del x,       n => InRing A x n
  | .delInit x,   n => InRing A x n

end

/-- What each operation does to the lists, under its documented precondition. A node can be added
    only while it is unlinked, next to an anchor or to a linked node, and removed only while it is
    linked (`delInit` accepts a self-linked node too). All other lists stay what they are. -/
inductive Step : Lists N → Op N → Lists N → Prop
  | init {A x} : Unlinked A x → Step A (.init x) (Function.update A x (some []))
  | add_anchor {A x p L} : Unlinked A x → A p = some L → x ≠ p →
      Step A (.add x p) (Function.update (Function.update A x none) p (some (x :: L)))
  | add_node {A x a p} (L₁ L₂) : Unlinked A x → A a = some (L₁ ++ p :: L₂) →
      Step A (.add x p) (Function.update (Function.update A x none) a (some (L₁ ++ p :: x :: L₂)))
  | addTail_anchor {A x p L} : Unlinked A x → A p = some L → x ≠ p →
      Step A (.addTail x p) (Function.update (Function.update A x none) p (some (L ++ [x])))
  | addTail_node {A x a p} (L₁ L₂) : Unlinked A x → A a = some (L₁ ++ p :: L₂) →
      Step A (.addTail x p)
        (Function.update (Function.update A x none) a (some (L₁ ++ x :: p :: L₂)))
  | del {A a x} (L₁ L₂) : A a = some (L₁ ++ x :: L₂) →
      Step A (.del x) (Function.update A a (some (L₁ ++ L₂)))
  | delInit {A a x} (L₁ L₂) : A a = some (L₁ ++ x :: L₂) →
      Step A (.delInit x) (Function.update (Function.update A a (some (L₁ ++ L₂))) x (some []))
  | delInit_self {A x} : Unlinked A x → A x = some [] → Step A (.delInit x) A

inductive Steps : Lists N → List (Op N) → Lists N → Prop
  | nil {A} : Steps A [] A
  | cons {A A' A'' op ops} : Step A op A' → Steps A' ops A'' → Steps A (op :: ops) A''

/-! ## The representation invariant

Rings of different anchors share no node, so an operation on one leaves the others alone. A node that is
spliced in must be unlinked, which keeps the rings apart.
-/

/-- Every anchor carries a ring of its sequence, and two rings share no node. -/
structure Inv (h : Heap N) (A : Lists N) : Prop where
  ring : ∀ a L, A a = some L → IsRing h a L
  apart : ∀ a b L M, A a = some L → A b = some M → a ≠ b → ∀ y ∈ a :: L, y ∉ b :: M

section
omit [DecidableEq N]

theorem inv_none (h : Heap N) : Inv h (fun _ => none) :=
  ⟨fun _ _ ha => (nomatch ha), fun _ _ _ _ ha => (nomatch ha)⟩

/-- A member of a list is not an anchor. -/
theorem Inv.member_not_anchor {h : Heap N} {A : Lists N} (hI : Inv h A) {a x : N} {L : List N}
    (ha : A a = some L) (hx : x ∈ L) : A x = none := by
  cases hAx : A x with
  | none => rfl
  | some M =>
      exfalso
      have hne : a ≠ x := by
        rintro rfl
        exact (List.nodup_cons.mp (hI.ring a L ha).nodup).1 hx
      exact hI.apart a x L M ha hAx hne x (List.mem_cons_of_mem a hx) List.mem_cons_self

end

/-- The ring of `a` is rewritten to `L'`, which has the old nodes and possibly `x`; `x` itself is no
    anchor afterwards. -/
theorem Inv.update {h h' : Heap N} {A : Lists N} (hI : Inv h A) {a x : N} {L L' : List N}
    (ha : A a = some L) (hxa : x ≠ a) (hring : IsRing h' a L')
    (hsub : ∀ y ∈ L', y = x ∨ y ∈ L)
    (hx : ∀ b M, A b = some M → b ≠ a → b ≠ x → x ∉ M)
    (hframe : ∀ y, y ∉ a :: L → y ≠ x → h' y = h y) :
    Inv h' (Function.update (Function.update A x none) a (some L')) := by
  have hread : ∀ b M, b ≠ a → Function.update (Function.update A x none) a (some L') b = some M →
      b ≠ x ∧ A b = some M := by
    intro b M hba hb
    by_cases hbx : b = x
    · subst hbx; simp [hba] at hb
    · exact ⟨hbx, by simpa [hba, hbx] using hb⟩
  -- the nodes of another ring are neither on the old ring of `a` nor `x`
  have hother : ∀ b M, b ≠ a → b ≠ x → A b = some M → ∀ y ∈ b :: M, y ∉ a :: L ∧ y ≠ x := by
    intro b M hba hbx hb y hy
    refine ⟨hI.apart b a M L hb ha hba y hy, ?_⟩
    rintro rfl
    rcases List.mem_cons.mp hy with rfl | hyM
    · exact hbx rfl
    · exact hx b M hb hba hbx hyM
  constructor
  · intro b M hb
    by_cases hba : b = a
    · subst hba
      simp only [Function.update_self, Option.some.injEq] at hb
      exact hb ▸ hring
    · obtain ⟨hbx, hAb⟩ := hread b M hba hb
      exact (hI.ring b M hAb).frame fun y hy =>
        hframe y (hother b M hba hbx hAb y hy).1 (hother b M hba hbx hAb y hy).2
  · -- a node of the new ring of `a` is on no other ring
    have hnew : ∀ b M, b ≠ a → Function.update (Function.update A x none) a (some L') b = some M →
        ∀ y ∈ a :: L', y ∉ b :: M := by
      intro b M hba hb y hy hyM
      obtain ⟨hbx, hAb⟩ := hread b M hba hb
      obtain ⟨hyL, hyx⟩ := hother b M hba hbx hAb y hyM
      rcases List.mem_cons.mp hy with rfl | hyL'
      · exact hyL List.mem_cons_self
      · rcases hsub y hyL' with rfl | hyL''
        · exact hyx rfl
        · exact hyL (List.mem_cons_of_mem a hyL'')
    intro b c M K hb hc hbc y hy
    by_cases hba : b = a
    · subst hba
      simp only [Function.update_self, Option.some.injEq] at hb
      subst hb
      exact hnew c K (Ne.symm hbc) hc y hy
    · by_cases hca : c = a
      · subst hca
        simp only [Function.update_self, Option.some.injEq] at hc
        subst hc
        exact fun hyc => hnew b M hba hb y hyc hy
      · exact hI.apart b c M K (hread b M hba hb).2 (hread c K hca hc).2 hbc y hy

/-- An unlinked node becomes the anchor of an empty list. -/
theorem Inv.anchor {h h' : Heap N} {A : Lists N} (hI : Inv h A) {x : N} (hx : Unlinked A x)
    (hring : IsRing h' x []) (hframe : ∀ y, y ≠ x → h' y = h y) :
    Inv h' (Function.update A x (some [])) := by
  -- the new anchor is on no other list
  have hother : ∀ b M, b ≠ x → A b = some M → x ∉ b :: M := by
    intro b M hbx hb hmem
    rcases List.mem_cons.mp hmem with rfl | hM
    · exact hbx rfl
    · exact hx.2 b M hb hM
  constructor
  · intro b M hb
    by_cases hbx : b = x
    · subst hbx
      simp only [Function.update_self, Option.some.injEq] at hb
      exact hb ▸ hring
    · have hAb : A b = some M := by simpa [hbx] using hb
      exact (hI.ring b M hAb).frame fun y hy => hframe y (by
        rintro rfl
        exact hother b M hbx hAb hy)
  · intro b c M K hb hc hbc y hy
    by_cases hbx : b = x
    · subst hbx
      simp only [Function.update_self, Option.some.injEq] at hb
      subst hb
      have hAc : A c = some K := by simpa [Ne.symm hbc] using hc
      rw [List.mem_singleton.mp hy]
      exact hother c K (Ne.symm hbc) hAc
    · have hAb : A b = some M := by simpa [hbx] using hb
      by_cases hcx : c = x
      · subst hcx
        simp only [Function.update_self, Option.some.injEq] at hc
        subst hc
        intro hyc
        rw [List.mem_singleton.mp hyc] at hy
        exact hother b M hbx hAb hy
      · exact hI.apart b c M K hAb (by simpa [hcx] using hc) hbc y hy

section
omit [DecidableEq N]

theorem Unlinked.notMem_ring {A : Lists N} {a x : N} {L : List N} (hx : Unlinked A x)
    (ha : A a = some L) (hxa : x ≠ a) : x ∉ a :: L := by
  intro hmem
  rcases List.mem_cons.mp hmem with he | hL
  · exact hxa he
  · exact hx.2 a L ha hL

theorem Unlinked.ne_anchor {A : Lists N} {a x p : N} {L₁ L₂ : List N} (hx : Unlinked A x)
    (ha : A a = some (L₁ ++ p :: L₂)) : x ≠ a := by
  rintro rfl
  rcases hx.1 with h0 | h0 <;> rw [ha] at h0 <;> simp at h0

end

/-- An unlinked node goes into the ring of `a`, next to the position `p`. -/
theorem Inv.insert {h h' : Heap N} {A : Lists N} (hI : Inv h A) {a x p : N} {L₁ L₂ : List N}
    (hx : Unlinked A x) (ha : A a = some (L₁ ++ L₂)) (hxa : x ≠ a) (hp : p ∈ a :: (L₁ ++ L₂))
    (hring : IsRing h' a (L₁ ++ x :: L₂))
    (hframe : ∀ y, y ∉ a :: (L₁ ++ L₂) → y ≠ x → h' y = h y) :
    Inv h' (Function.update (Function.update A x none) a (some (L₁ ++ x :: L₂))) ∧
      ∀ n, ¬ (n = x ∨ InRing A p n) → h' n = h n := by
  refine ⟨hI.update ha hxa hring ?_ (fun b M hb _ _ => hx.2 b M hb) hframe, ?_⟩
  · intro y hy
    simp only [List.mem_append, List.mem_cons] at hy ⊢
    tauto
  · intro n hn
    rw [not_or] at hn
    exact hframe n (fun hmem => hn.2 ⟨a, _, ha, hp, hmem⟩) hn.1

/-- A member leaves the ring of `a`, and is unlinked afterwards. -/
theorem Inv.remove {h h' : Heap N} {A : Lists N} (hI : Inv h A) {a x : N} {L₁ L₂ : List N}
    (ha : A a = some (L₁ ++ x :: L₂)) (hring : IsRing h' a (L₁ ++ L₂))
    (hframe : ∀ y, y ∉ a :: (L₁ ++ x :: L₂) → h' y = h y) :
    Inv h' (Function.update A a (some (L₁ ++ L₂))) ∧
      Unlinked (Function.update A a (some (L₁ ++ L₂))) x ∧
        ∀ n, ¬ InRing A x n → h' n = h n := by
  have hmem : x ∈ L₁ ++ x :: L₂ := by simp
  have hnone : A x = none := hI.member_not_anchor ha hmem
  have hxr := (hI.ring a _ ha).notMem_rest
  have hxa : x ≠ a := fun he => hxr (he ▸ List.mem_cons_self)
  have hother : ∀ b M, A b = some M → b ≠ a → x ∉ M := fun b M hb hba hxM =>
    hI.apart b a M _ hb ha hba x (List.mem_cons_of_mem b hxM) (List.mem_cons_of_mem a hmem)
  have hsame : Function.update A x none = A := by
    rw [← hnone, Function.update_eq_self]
  refine ⟨?_, ⟨.inl (by simp [hxa, hnone]), ?_⟩, ?_⟩
  · have hupd : Inv h' (Function.update (Function.update A x none) a (some (L₁ ++ L₂))) :=
      hI.update ha hxa hring
      (by intro y hy; simp only [List.mem_append, List.mem_cons] at hy ⊢; tauto)
      (fun b M hb hba _ => hother b M hb hba) (fun y hy _ => hframe y hy)
    rwa [hsame] at hupd
  · intro b M hb
    by_cases hba : b = a
    · subst hba
      simp only [Function.update_self, Option.some.injEq] at hb
      exact fun hxM => hxr (List.mem_cons_of_mem b (hb ▸ hxM))
    · exact hother b M (by simpa [hba] using hb) hba
  · exact fun n hn => hframe n fun hmem' => hn ⟨a, _, ha, List.mem_cons_of_mem a hmem, hmem'⟩

/-- **Step lemma.** An operation whose precondition holds succeeds, keeps the invariant, and writes
    no node but those it touches. -/
theorem exec_step {h : Heap N} {A A' : Lists N} {op : Op N} (hI : Inv h A) (hs : Step A op A') :
    ∃ h', exec h op = some h' ∧ Inv h' A' ∧ ∀ n, ¬ Touched A op n → h' n = h n := by
  cases hs with
  | @init x hx =>
      obtain ⟨hring, hframe⟩ := init_spec h x
      exact ⟨_, rfl, hI.anchor hx hring hframe, fun n hn => hframe n hn⟩
  | @add_anchor x p L hx hp hxp =>
      have hp' : A p = some ([] ++ L) := hp
      obtain ⟨h', hadd, hring, hframe⟩ :=
        add_spec (p := p) (hI.ring p _ hp') (hx.notMem_ring hp' hxp) (by simp)
      obtain ⟨hinv, hkeep⟩ := hI.insert (p := p) hx hp' hxp (by simp) hring hframe
      exact ⟨h', hadd, hinv, hkeep⟩
  | @add_node x a p L₁ L₂ hx ha =>
      have ha' : A a = some ((L₁ ++ [p]) ++ L₂) := by simpa using ha
      have hxa := hx.ne_anchor ha
      obtain ⟨h', hadd, hring, hframe⟩ :=
        add_spec (hI.ring a _ ha') (hx.notMem_ring ha' hxa) (getLast?_cons_concat a p L₁)
      obtain ⟨hinv, hkeep⟩ := hI.insert (p := p) hx ha' hxa (by simp) hring hframe
      exact ⟨h', hadd, by simpa using hinv, hkeep⟩
  | @addTail_anchor x p L hx hp hxp =>
      have hp' : A p = some (L ++ []) := by simpa using hp
      obtain ⟨h', hadd, hring, hframe⟩ :=
        addTail_spec (n := p) (hI.ring p _ hp') (hx.notMem_ring hp' hxp) (by simp)
      obtain ⟨hinv, hkeep⟩ := hI.insert (p := p) hx hp' hxp (by simp) hring hframe
      exact ⟨h', hadd, hinv, hkeep⟩
  | @addTail_node x a p L₁ L₂ hx ha =>
      have hxa := hx.ne_anchor ha
      obtain ⟨h', hadd, hring, hframe⟩ :=
        addTail_spec (n := p) (hI.ring a _ ha) (hx.notMem_ring ha hxa) (by simp)
      obtain ⟨hinv, hkeep⟩ := hI.insert (p := p) hx ha hxa (by simp) hring hframe
      exact ⟨h', hadd, hinv, hkeep⟩
  | @del a x L₁ L₂ ha =>
      obtain ⟨h', hdel, hring, -, hframe⟩ := del_spec (hI.ring a _ ha)
      obtain ⟨hinv, -, hkeep⟩ := hI.remove ha hring hframe
      exact ⟨h', hdel, hinv, hkeep⟩
  | @delInit a x L₁ L₂ ha =>
      obtain ⟨h', hdel, hring, hself, hframe⟩ := delInit_spec (hI.ring a _ ha)
      obtain ⟨hinv, hunl, hkeep⟩ := hI.remove ha hring hframe
      exact ⟨h', hdel, hinv.anchor hunl hself (fun _ _ => rfl), hkeep⟩
  | @delInit_self x hx hAx =>
      exact ⟨h, delInit_self (hI.ring x [] hAx), hI, fun _ _ => rfl⟩

/-- **Run lemma.** Every sequence of calls that respects the preconditions succeeds and keeps the
    invariant. -/
theorem run_inv {h : Heap N} {A A' : Lists N} {ops : List (Op N)} (hI : Inv h A)
    (hs : Steps A ops A') : ∃ h', Machine.run exec h ops = some h' ∧ Inv h' A' := by
  induction hs generalizing h with
  | nil => exact ⟨h, rfl, hI⟩
  | cons hop _ ih =>
      obtain ⟨h₁, hexec, hI₁, -⟩ := exec_step hI hop
      obtain ⟨h', hrun, hI'⟩ := ih hI₁
      exact ⟨h', by rw [Machine.run_cons, hexec]; exact hrun, hI'⟩

/-! ## Refinement

What a program can see of the lists is what it meets on its walks, forwards and backwards, and the
answer of `is_empty`.
-/

/-- What a program sees of the heap: from every anchor the forward walk visits the sequence and
    comes back, the backward walk visits its reverse, and `isEmpty` tells an empty sequence. -/
def Represents (h : Heap N) (A : Lists N) : Prop :=
  ∀ a L, A a = some L →
    (∀ k, L.length < k → walk (fun u => (h u).next) a k (h a).next = some L) ∧
    (∀ k, L.length < k → walk (fun u => (h u).prev) a k (h a).prev = some L.reverse) ∧
    (isEmpty h a = true ↔ L = [])

theorem Inv.represents {h : Heap N} {A : Lists N} (hI : Inv h A) : Represents h A := by
  intro a L ha
  have hr := hI.ring a L ha
  exact ⟨fun k hk => hr.walk_next hk, fun k hk => hr.walk_prev hk, isEmpty_iff hr⟩

/-- **The intrusive list refines disjoint sequences.** From a heap of fresh nodes with any pointers
    in them, every sequence of calls that respects the preconditions succeeds and leaves a heap that
    represents its abstract lists; and so does every further call, which writes no node but the one
    it is about and those on the ring it works on. -/
theorem std_list_refines_sequences {ops : List (Op N)} {A : Lists N}
    (hops : Steps (fun _ => none) ops A) (h₀ : Heap N) :
    ∃ h, Machine.run exec h₀ ops = some h ∧ Represents h A ∧
      ∀ op A', Step A op A' →
        ∃ h', exec h op = some h' ∧ Represents h' A' ∧ ∀ n, ¬ Touched A op n → h' n = h n := by
  obtain ⟨h, hrun, hI⟩ := run_inv (inv_none h₀) hops
  refine ⟨h, hrun, hI.represents, ?_⟩
  intro op A' hop
  obtain ⟨h', hexec, hI', hframe⟩ := exec_step hI hop
  exact ⟨h', hexec, hI'.represents, hframe⟩

/-- Push-back, insertion after a node, and removal of that node, on one list, while a node waits on
    another: the removal writes neither that node nor its head. -/
theorem std_list_refines_sequences_two_heads :
    ∃ A A' : Lists Nat, A' 0 = some [2] ∧ A' 10 = some [11] ∧
      ∃ h h', Machine.run exec (fun _ => ⟨some 7, none⟩)
          [.init 0, .init 10, .addTail 11 10, .addTail 1 0, .add 2 1] = some h ∧ Represents h A ∧
        exec h (.del 1) = some h' ∧ Represents h' A' ∧ h' 10 = h 10 ∧ h' 11 = h 11 := by
  have hsteps : Steps (fun _ => none)
      [.init 0, .init 10, .addTail 11 10, .addTail 1 0, .add 2 1] _ :=
    .cons (.init (x := 0) ⟨.inl rfl, by simp⟩)
      (.cons (.init (x := 10) ⟨.inl (by simp), by grind⟩)
        (.cons (.addTail_anchor (x := 11) (p := 10) (L := []) ⟨.inl (by simp), by grind⟩ (by simp)
            (by simp))
          (.cons (.addTail_anchor (x := 1) (p := 0) (L := []) ⟨.inl (by simp), by grind⟩ (by simp)
              (by simp))
            (.cons (.add_node (x := 2) (a := 0) (p := 1) [] []
                ⟨.inl (by simp), by grind⟩ (by simp)) .nil))))
  obtain ⟨h, hrun, hrep, hnext⟩ := std_list_refines_sequences hsteps (fun _ => ⟨some 7, none⟩)
  obtain ⟨h', hdel, hrep', hframe⟩ := hnext (.del 1) _ (.del (a := 0) (x := 1) [] [2] (by simp))
  -- the only ring with the node 1 is that of the head 0
  refine ⟨_, _, by simp, by simp, h, h', hrun, hrep, hdel, hrep', hframe 10 ?_, hframe 11 ?_⟩
  · rintro ⟨a, L, ha, hone, hten⟩
    grind [Function.update_apply]
  · rintro ⟨a, L, ha, hone, heleven⟩
    grind [Function.update_apply]

end CustLib.ListHead
