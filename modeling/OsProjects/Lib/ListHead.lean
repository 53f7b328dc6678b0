import Mathlib.Data.List.Chain
import Mathlib.Data.List.Nodup
import Mathlib.Logic.Function.Basic

/-!
# Circular doubly linked lists

The lists of the kernel are made of nodes that carry two links; a list is a ring of
nodes through a head, which is a node like the others. The operations assign links, and
nothing in them says which nodes make up a list. Here a ring is a statement about the
links and the list of the nodes behind the head, and every operation has a rule that
says what it does to that list.

## Main definitions

* `Links` — the links of all nodes, with `listAdd`, `listDelInit`, `initListHead`,
  `listEmpty`
* `Links.reverseFind` — `list_for_each_entry_reverse` up to the entry at which it breaks
* `Links.Ring` — the nodes of a list, in order

## Main results

* `Ring.listAdd`, `Ring.listDelInit` — insertion behind any node, removal of any node
* `Ring.reverseFind` — the backward scan ends at the last entry that is asked for
* `Ring.congr`, `Ring.links_eq` — a ring rests on the links of its own nodes only, and
  determines them
-/

namespace OsProjects.ListHead

variable {α : Type*}

/-- The two links of every node. -/
structure Links (α : Type*) where
  next : α → α
  prev : α → α

namespace Links

section Operations

variable [DecidableEq α]

def setNext (l : Links α) (a b : α) : Links α := { l with next := Function.update l.next a b }

def setPrev (l : Links α) (a b : α) : Links α := { l with prev := Function.update l.prev a b }

/-- `INIT_LIST_HEAD` -/
def initListHead (l : Links α) (list : α) : Links α := (l.setNext list list).setPrev list list

/-- `__list_add` -/
def insertBetween (l : Links α) (new prev next : α) : Links α :=
  (((l.setPrev next new).setNext new next).setPrev new prev).setNext prev new

/-- `list_add` -/
def listAdd (l : Links α) (new head : α) : Links α := l.insertBetween new head (l.next head)

/-- `__list_del` -/
def joinAround (l : Links α) (prev next : α) : Links α := (l.setPrev next prev).setNext prev next

/-- `list_del_init` -/
def listDelInit (l : Links α) (entry : α) : Links α :=
  (l.joinAround (l.prev entry) (l.next entry)).initListHead entry

/-- `list_empty` -/
def listEmpty (l : Links α) (head : α) : Bool := l.next head = head

/-- `list_for_each_entry_reverse` up to the first entry that is `found`, from `pos` on;
the entry reached, or the head. Looking at an entry may fail. -/
def reverseFind (l : Links α) (head : α) (found : α → Option Bool) : ℕ → α → Option α
  | 0, _ => none
  | fuel + 1, pos =>
    if pos = head then some pos
    else
      (found pos).bind fun b =>
        if b then some pos else reverseFind l head found fuel (l.prev pos)

end Operations

/-! ### Rings -/

/-- `x` and `y` point at each other. -/
def Linked (l : Links α) (x y : α) : Prop := l.next x = y ∧ l.prev y = x

/-- From `head` the links lead over `xs` and back. -/
structure Ring (l : Links α) (head : α) (xs : List α) : Prop where
  linked : (head :: xs ++ [head]).IsChain l.Linked
  nodup : (head :: xs).Nodup

variable {l m : Links α} {head x y n p q : α} {xs ys : List α}

/-- A chain rests on the forward links of all nodes but the last and on the backward
links of all but the first. -/
theorem chain_congr (h : xs.IsChain l.Linked) (hnext : ∀ x ∈ xs.dropLast, m.next x = l.next x)
    (hprev : ∀ x ∈ xs.tail, m.prev x = l.prev x) : xs.IsChain m.Linked := by
  rw [List.isChain_iff_forall_rel_of_append_cons_cons] at h ⊢
  intro x y front back hxs
  obtain ⟨hx, hy⟩ := h hxs
  subst hxs
  refine ⟨?_, ?_⟩
  · rw [hnext x (by simp [List.dropLast_append_of_ne_nil]), hx]
  · rw [hprev y (by cases front <;> simp), hy]

/-- **Frame.** A ring rests on the links of its own nodes only. -/
theorem Ring.congr (h : l.Ring head xs)
    (hsame : ∀ x ∈ head :: xs, m.next x = l.next x ∧ m.prev x = l.prev x) :
    m.Ring head xs := by
  refine ⟨chain_congr h.linked ?_ ?_, h.nodup⟩
  · intro x hx
    rw [List.dropLast_concat] at hx
    exact (hsame x hx).1
  · intro x hx
    refine (hsame x ?_).2
    rw [List.cons_append, List.tail_cons, List.mem_append, List.mem_singleton] at hx
    rw [List.mem_cons]
    exact hx.symm

/-- Neighbours in a ring point at each other. -/
theorem Ring.neighbours {front back : List α} (h : l.Ring head xs)
    (hxs : head :: xs ++ [head] = front ++ x :: y :: back) : l.next x = y ∧ l.prev y = x :=
  List.isChain_iff_forall_rel_of_append_cons_cons.mp h.linked hxs

/-! ### Cutting a ring -/

section Cut

variable {front back : List α}

/-- A ring has a last node, which is the head when it has no other. -/
theorem exists_concat (head : α) (xs : List α) : ∃ front p, head :: xs = front ++ [p] := by
  rcases List.eq_nil_or_concat' (head :: xs) with hnil | hconcat
  · exact absurd hnil (List.cons_ne_nil head xs)
  · exact hconcat

/-- And behind any of its nodes stands one, which may be the head. -/
theorem exists_cons (head : α) (ys : List α) : ∃ q back, ys ++ [head] = q :: back :=
  List.exists_cons_of_ne_nil (List.append_ne_nil_of_right_ne_nil ys (List.cons_ne_nil head []))

/-- A ring cut behind `p`. -/
theorem closed_eq (hp : head :: xs = front ++ [p]) (ys : List α) :
    head :: (xs ++ ys) ++ [head] = front ++ p :: (ys ++ [head]) := by
  rw [← List.cons_append, hp, List.append_assoc, List.append_assoc]
  rfl

theorem mem_of_concat (hp : head :: xs = front ++ [p]) : p ∈ head :: (xs ++ ys) := by
  rw [← List.cons_append, hp]
  simp

theorem mem_of_cons (hq : ys ++ [head] = q :: back) : q ∈ head :: (xs ++ ys) := by
  have hmem : q ∈ ys ++ [head] := hq ▸ List.mem_cons_self
  simp only [List.mem_append, List.mem_cons, List.not_mem_nil, or_false] at hmem ⊢
  tauto

/-- Behind every node of a ring stands one. -/
theorem exists_behind (hx : x ∈ head :: xs) :
    ∃ front y back, head :: xs ++ [head] = front ++ x :: y :: back ∧ y ∈ head :: xs := by
  obtain ⟨front, ys, hxs⟩ := List.append_of_mem hx
  obtain ⟨y, back, hy⟩ := exists_cons head ys
  have hclosed : head :: xs ++ [head] = front ++ x :: y :: back := by
    rw [hxs, List.append_assoc, List.cons_append, hy]
  have hmem : y ∈ ys ++ [head] := hy ▸ List.mem_cons_self
  refine ⟨front, y, back, hclosed, ?_⟩
  rcases List.mem_append.mp hmem with hmem | hmem
  · rw [hxs]
    exact List.mem_append_right front (List.mem_cons_of_mem x hmem)
  · rw [List.mem_singleton.mp hmem]
    exact List.mem_cons_self

/-- And before every node. -/
theorem exists_before (hx : x ∈ head :: xs) :
    ∃ front y back, head :: xs ++ [head] = front ++ y :: x :: back ∧ y ∈ head :: xs := by
  -- the head, too, has a node before it, from which it is reached again
  have hx' : x ∈ xs ++ [head] := by
    rw [List.mem_append, List.mem_singleton]
    exact (List.mem_cons.mp hx).symm
  obtain ⟨ys, back, hxs⟩ := List.append_of_mem hx'
  obtain ⟨front, y, hy⟩ := exists_concat head ys
  have hclosed : head :: xs ++ [head] = front ++ y :: x :: back := by
    rw [List.cons_append, hxs, ← List.cons_append, hy, List.append_assoc]
    rfl
  have hmem : y ∈ head :: ys := by
    rw [hy]
    exact List.mem_append_right front List.mem_cons_self
  refine ⟨front, y, back, hclosed, ?_⟩
  rcases List.mem_cons.mp hmem with rfl | hmem
  · exact List.mem_cons_self
  · have hmem' : y ∈ xs ++ [head] := by
      rw [hxs]
      exact List.mem_append_left _ hmem
    rw [List.mem_append, List.mem_singleton] at hmem'
    exact List.mem_cons.mpr hmem'.symm

end Cut

theorem Ring.next_mem (h : l.Ring head xs) (hx : x ∈ head :: xs) : l.next x ∈ head :: xs := by
  obtain ⟨front, y, back, hclosed, hy⟩ := exists_behind hx
  rw [(h.neighbours hclosed).1]
  exact hy

theorem Ring.prev_mem (h : l.Ring head xs) (hx : x ∈ head :: xs) : l.prev x ∈ head :: xs := by
  obtain ⟨front, y, back, hclosed, hy⟩ := exists_before hx
  rw [(h.neighbours hclosed).2]
  exact hy

/-- A ring determines the links of its nodes. -/
theorem Ring.links_eq (h : l.Ring head xs) (h' : m.Ring head xs) (hx : x ∈ head :: xs) :
    l.next x = m.next x ∧ l.prev x = m.prev x := by
  constructor
  · obtain ⟨front, y, back, hclosed, -⟩ := exists_behind hx
    rw [(h.neighbours hclosed).1, (h'.neighbours hclosed).1]
  · obtain ⟨front, y, back, hclosed, -⟩ := exists_before hx
    rw [(h.neighbours hclosed).2, (h'.neighbours hclosed).2]

/-! ### The operations on a ring -/

section Operations

variable [DecidableEq α] {front back : List α}

@[simp] theorem setNext_next (l : Links α) (a b : α) :
    (l.setNext a b).next = Function.update l.next a b := rfl

@[simp] theorem setNext_prev (l : Links α) (a b : α) : (l.setNext a b).prev = l.prev := rfl

@[simp] theorem setPrev_next (l : Links α) (a b : α) : (l.setPrev a b).next = l.next := rfl

@[simp] theorem setPrev_prev (l : Links α) (a b : α) :
    (l.setPrev a b).prev = Function.update l.prev a b := rfl

theorem initListHead_ring (l : Links α) (list : α) : (l.initListHead list).Ring list [] where
  linked := by simp [Linked, initListHead]
  nodup := List.nodup_singleton list

/-- An initialised node leaves the other nodes alone. -/
theorem Ring.initListHead (h : l.Ring head xs) (hn : n ∉ head :: xs) :
    (l.initListHead n).Ring head xs := by
  refine h.congr fun x hx => ?_
  have hne : x ≠ n := ne_of_mem_of_not_mem hx hn
  simp [Links.initListHead, hne]

theorem Ring.listEmpty_iff (h : l.Ring head xs) : l.listEmpty head = true ↔ xs = [] := by
  unfold listEmpty
  rw [decide_eq_true_iff]
  cases xs with
  | nil =>
    have hclosed : head :: [] ++ [head] = [] ++ head :: head :: [] := rfl
    exact iff_of_true (h.neighbours hclosed).1 rfl
  | cons x xs =>
    have hclosed : head :: (x :: xs) ++ [head] = [] ++ head :: x :: (xs ++ [head]) := rfl
    have hnext := (h.neighbours hclosed).1
    refine iff_of_false ?_ (List.cons_ne_nil x xs)
    rw [hnext]
    rintro rfl
    exact (List.nodup_cons.mp h.nodup).1 List.mem_cons_self

omit [DecidableEq α] in
/-- Cut between `p` and `q`, the two halves of a ring rest on the forward links of all
nodes but `p` and on the backward links of all but `q`. -/
theorem halves_congr (hnodup : (head :: (xs ++ ys)).Nodup) (hp : head :: xs = front ++ [p])
    (hq : ys ++ [head] = q :: back) (hnext : ∀ x ∈ head :: (xs ++ ys), x ≠ p → m.next x = l.next x)
    (hprev : ∀ x ∈ head :: (xs ++ ys), x ≠ q → m.prev x = l.prev x)
    (h : (front ++ [p]).IsChain l.Linked ∧ (q :: back).IsChain l.Linked) :
    (front ++ [p]).IsChain m.Linked ∧ (q :: back).IsChain m.Linked := by
  have hperm : (head :: (xs ++ ys)).Perm (xs ++ (ys ++ [head])) := by
    rw [← List.append_assoc]
    exact (List.perm_append_singleton head (xs ++ ys)).symm
  have hleft : (front ++ [p] ++ ys).Nodup := hp ▸ hnodup
  have hright : (xs ++ q :: back).Nodup := hq ▸ hperm.nodup_iff.mp hnodup
  have hleft' : ∀ x, x ∈ front ∨ x ∈ ys → x ∈ head :: (xs ++ ys) ∧ x ≠ p := by
    intro x hx
    have hxs : head :: (xs ++ ys) = front ++ [p] ++ ys := by rw [← hp, List.cons_append]
    rw [hxs]
    rw [List.nodup_append', List.nodup_append'] at hleft
    obtain ⟨⟨-, -, hfront⟩, -, hys⟩ := hleft
    rcases hx with hx | hx
    · exact ⟨by simp [hx], fun heq => hfront hx (List.mem_singleton.mpr heq)⟩
    · exact ⟨by simp [hx], fun heq => hys (by simp [heq]) hx⟩
  have hright' : ∀ x, x ∈ xs ∨ x ∈ back → x ∈ head :: (xs ++ ys) ∧ x ≠ q := by
    intro x hx
    rw [hperm.mem_iff, hq]
    rw [List.nodup_append', List.nodup_cons] at hright
    obtain ⟨-, ⟨hback, -⟩, hxs⟩ := hright
    rcases hx with hx | hx
    · exact ⟨by simp [hx], fun heq => hxs hx (by simp [heq])⟩
    · exact ⟨by simp [hx], fun heq => hback (heq ▸ hx)⟩
  constructor
  · apply chain_congr h.1
    · intro x hx
      rw [List.dropLast_concat] at hx
      obtain ⟨hmem, hne⟩ := hleft' x (.inl hx)
      exact hnext x hmem hne
    · intro x hx
      rw [← hp, List.tail_cons] at hx
      obtain ⟨hmem, hne⟩ := hright' x (.inl hx)
      exact hprev x hmem hne
  · apply chain_congr h.2
    · intro x hx
      rw [← hq, List.dropLast_concat] at hx
      obtain ⟨hmem, hne⟩ := hleft' x (.inr hx)
      exact hnext x hmem hne
    · intro x hx
      rw [List.tail_cons] at hx
      obtain ⟨hmem, hne⟩ := hright' x (.inr hx)
      exact hprev x hmem hne

/-- A node is inserted behind `p`, wherever that stands. -/
theorem Ring.listAdd (h : l.Ring head (xs ++ ys)) (hn : n ∉ head :: (xs ++ ys))
    (hp : head :: xs = front ++ [p]) : (l.listAdd n p).Ring head (xs ++ n :: ys) := by
  obtain ⟨q, back, hq⟩ := exists_cons head ys
  have hclosed : head :: (xs ++ ys) ++ [head] = front ++ p :: q :: back := by
    rw [closed_eq hp, hq]
  have hpq := (h.neighbours hclosed).1
  have hlinked := h.linked
  rw [hclosed, List.isChain_append_cons_cons] at hlinked
  have hne : ∀ x ∈ head :: (xs ++ ys), x ≠ n := fun x hx => ne_of_mem_of_not_mem hx hn
  have hpn := hne p (mem_of_concat hp)
  have hqn := hne q (mem_of_cons hq)
  obtain ⟨hleft, hright⟩ := halves_congr (m := l.listAdd n p) h.nodup hp hq
    (fun x hx hxp => by simp [Links.listAdd, insertBetween, hxp, hne x hx])
    (fun x hx hxq => by simp [Links.listAdd, insertBetween, hpq, hxq, hne x hx])
    ⟨hlinked.1, hlinked.2.2⟩
  constructor
  · have hclosed' : head :: (xs ++ n :: ys) ++ [head] = front ++ p :: n :: q :: back := by
      rw [closed_eq hp, List.cons_append, hq]
    rw [hclosed', List.isChain_append_cons_cons, List.isChain_cons_cons]
    refine ⟨hleft, ⟨?_, ?_⟩, ⟨?_, ?_⟩, hright⟩
    · simp [Links.listAdd, insertBetween]
    · simp [Links.listAdd, insertBetween]
    · simp [Links.listAdd, insertBetween, hpq, hpn.symm]
    · simp [Links.listAdd, insertBetween, hpq, hqn]
  · have hperm : (head :: (xs ++ n :: ys)).Perm (n :: head :: (xs ++ ys)) :=
      (List.perm_middle.cons head).trans (List.Perm.swap n head _)
    exact hperm.nodup_iff.mpr (List.nodup_cons.mpr ⟨hn, h.nodup⟩)

/-- A node is removed, wherever it stands. -/
theorem Ring.listDelInit (h : l.Ring head (xs ++ n :: ys)) :
    (l.listDelInit n).Ring head (xs ++ ys) := by
  obtain ⟨front, p, hp⟩ := exists_concat head xs
  obtain ⟨q, back, hq⟩ := exists_cons head ys
  have hclosed : head :: (xs ++ n :: ys) ++ [head] = front ++ p :: n :: q :: back := by
    rw [closed_eq hp, List.cons_append, hq]
  have hclosed' : head :: (xs ++ n :: ys) ++ [head] = (front ++ [p]) ++ n :: q :: back := by
    rw [hclosed, List.append_assoc]
    rfl
  have hnp := (h.neighbours hclosed).2
  have hnq := (h.neighbours hclosed').1
  have hperm : (head :: (xs ++ n :: ys)).Perm (n :: head :: (xs ++ ys)) :=
    (List.perm_middle.cons head).trans (List.Perm.swap n head _)
  obtain ⟨hn, hnodup⟩ := List.nodup_cons.mp (hperm.nodup_iff.mp h.nodup)
  have hne : ∀ x ∈ head :: (xs ++ ys), x ≠ n := fun x hx => ne_of_mem_of_not_mem hx hn
  have hlinked := h.linked
  rw [hclosed, List.isChain_append_cons_cons, List.isChain_cons_cons] at hlinked
  obtain ⟨hleft, hright⟩ := halves_congr (m := l.listDelInit n) hnodup hp hq
    (fun x hx hxp => by
      simp [Links.listDelInit, joinAround, Links.initListHead, hnp, hxp, hne x hx])
    (fun x hx hxq => by
      simp [Links.listDelInit, joinAround, Links.initListHead, hnq, hxq, hne x hx])
    ⟨hlinked.1, hlinked.2.2.2⟩
  have hpn := hne p (mem_of_concat hp)
  have hqn := hne q (mem_of_cons hq)
  refine ⟨?_, hnodup⟩
  have hjoined : head :: (xs ++ ys) ++ [head] = front ++ p :: q :: back := by
    rw [closed_eq hp, hq]
  rw [hjoined, List.isChain_append_cons_cons]
  refine ⟨hleft, ⟨?_, ?_⟩, hright⟩
  · simp [Links.listDelInit, joinAround, Links.initListHead, hnp, hnq, hpn]
  · simp [Links.listDelInit, joinAround, Links.initListHead, hnp, hnq, hqn]

/-! ### A second ring -/

section Frame

variable {other : α} {zs : List α}

/-- An insertion assigns links of the ring and of the new node only. -/
theorem Ring.listAdd_of_not_mem (hring : l.Ring head xs) (hp : p ∈ head :: xs)
    (hx : x ∉ head :: xs) (hxn : x ≠ n) :
    (l.listAdd n p).next x = l.next x ∧ (l.listAdd n p).prev x = l.prev x := by
  have hxp : x ≠ p := fun heq => hx (heq ▸ hp)
  have hxq : x ≠ l.next p := fun heq => hx (heq ▸ hring.next_mem hp)
  simp [Links.listAdd, insertBetween, hxn, hxp, hxq]

/-- It leaves a ring of other nodes alone. -/
theorem Ring.listAdd_frame (h : l.Ring other zs) (hring : l.Ring head xs)
    (hdisjoint : ∀ x ∈ other :: zs, x ∉ head :: xs) (hn : n ∉ other :: zs)
    (hp : p ∈ head :: xs) : (l.listAdd n p).Ring other zs := by
  refine h.congr fun x hx => ?_
  exact hring.listAdd_of_not_mem hp (hdisjoint x hx) (ne_of_mem_of_not_mem hx hn)

/-- So does a removal. -/
theorem Ring.listDelInit_frame (h : l.Ring other zs) (hring : l.Ring head xs)
    (hdisjoint : ∀ x ∈ other :: zs, x ∉ head :: xs) (hn : n ∈ head :: xs) :
    (l.listDelInit n).Ring other zs := by
  refine h.congr fun x hx => ?_
  have hxn : x ≠ n := fun heq => hdisjoint x hx (heq ▸ hn)
  have hxp : x ≠ l.prev n := fun heq => hdisjoint x hx (heq ▸ hring.prev_mem hn)
  have hxq : x ≠ l.next n := fun heq => hdisjoint x hx (heq ▸ hring.next_mem hn)
  simp [Links.listDelInit, joinAround, Links.initListHead, hxn, hxp, hxq]

end Frame

/-! ### The backward scan -/

/-- Wherever it stands, the scan passes over the entries that are not found, to the last
one before them that is, or to the head. -/
theorem Ring.reverseFind_from {found : α → Option Bool} {zs : List α}
    (h : l.Ring head (xs ++ (ys ++ zs))) (hp : head :: xs = front ++ [p])
    (hfound : p ≠ head → found p = some true) (hpassed : ∀ y ∈ ys, found y = some false)
    (hq : head :: (xs ++ ys) = back ++ [q]) :
    l.reverseFind head found (ys.length + 1) q = some p := by
  induction ys using List.reverseRecOn generalizing zs back q with
  | nil =>
    have heq : front ++ [p] = back ++ [q] := by rw [← hp, ← hq, List.append_nil]
    obtain rfl : p = q := (List.append_inj' heq rfl).2 |> List.singleton_inj.mp
    by_cases hhead : p = head
    · simp [Links.reverseFind, hhead]
    · simp [Links.reverseFind, hhead, hfound hhead]
  | append_singleton ys y ih =>
    rw [← List.append_assoc, ← List.cons_append] at hq
    obtain ⟨hback, hy⟩ := List.append_inj' hq rfl
    obtain rfl := List.singleton_inj.mp hy
    obtain ⟨back', r, hr⟩ := exists_concat head (xs ++ ys)
    have hne : y ≠ head := by
      rintro rfl
      exact (List.nodup_cons.mp h.nodup).1 (by simp)
    have hclosed : head :: (xs ++ (ys ++ [y] ++ zs)) ++ [head] =
        back' ++ r :: y :: (zs ++ [head]) := by
      rw [List.append_assoc, ← List.append_assoc xs, closed_eq hr]
      rfl
    have hprev := (h.neighbours hclosed).2
    have hring : l.Ring head (xs ++ (ys ++ (y :: zs))) := by simpa using h
    have hrest := ih hring (fun z hz => hpassed z (List.mem_append_left _ hz)) hr
    rw [List.length_append, List.length_singleton, Links.reverseFind, if_neg hne,
      hpassed y (by simp), Option.bind_some, hprev]
    exact hrest

omit [DecidableEq α] in
/-- The last entry is before the head. -/
theorem Ring.prev_head (h : l.Ring head xs) (hp : head :: xs = front ++ [p]) :
    l.prev head = p := by
  have hclosed := closed_eq hp []
  rw [List.append_nil] at hclosed
  exact (h.neighbours hclosed).2

omit [DecidableEq α] in
/-- The first entry is behind it. -/
theorem Ring.next_head (h : l.Ring head xs) (hq : xs ++ [head] = q :: back) :
    l.next head = q := by
  have hclosed : head :: xs ++ [head] = [] ++ head :: q :: back := by
    rw [List.cons_append, hq]
    rfl
  exact (h.neighbours hclosed).1

/-- Whatever the bound on its passes, a scan that ends ends at one node. -/
theorem reverseFind_unique {found : α → Option Bool} {fuel fuel' : ℕ}
    (h : l.reverseFind head found fuel x = some p)
    (h' : l.reverseFind head found fuel' x = some q) : p = q := by
  induction fuel generalizing fuel' x with
  | zero => cases h
  | succ fuel ih =>
    cases fuel' with
    | zero => cases h'
    | succ fuel' =>
      rw [Links.reverseFind] at h h'
      by_cases hx : x = head
      · rw [if_pos hx] at h h'
        exact Option.some_inj.mp (h.symm.trans h')
      · rw [if_neg hx] at h h'
        obtain ⟨b, hb, h⟩ := Option.bind_eq_some_iff.mp h
        obtain ⟨b', hb', h'⟩ := Option.bind_eq_some_iff.mp h'
        obtain rfl := Option.some_inj.mp (hb.symm.trans hb')
        split at h
        · rw [if_pos ‹_›] at h'
          exact Option.some_inj.mp (h.symm.trans h')
        · rw [if_neg ‹_›] at h'
          exact ih h h'

/-- A scan of the whole ring ends at the last entry found, or at the head. -/
theorem Ring.reverseFind {found : α → Option Bool} (h : l.Ring head (xs ++ ys))
    (hp : head :: xs = front ++ [p]) (hfound : p ≠ head → found p = some true)
    (hpassed : ∀ y ∈ ys, found y = some false) :
    l.reverseFind head found (ys.length + 1) (l.prev head) = some p := by
  obtain ⟨back, q, hq⟩ := exists_concat head (xs ++ ys)
  rw [h.prev_head hq]
  have h' : l.Ring head (xs ++ (ys ++ [])) := by rwa [List.append_nil]
  exact h'.reverseFind_from hp hfound hpassed hq

end Operations

end Links

end OsProjects.ListHead
