/-
The pooled lists of kernel/klib/list.c: list heads embedded in their owners, and 256 nodes
shared by all of them through a free list. The lists refine a family of queues: enqueue appends,
dequeue takes the oldest entry, and every node is on exactly one list.
-/
import Mathlib.Tactic
import TinyOS.Lib.Ring

namespace TinyOS.Klib

open TinyOS.Lib

/-- `LIST_NUM`. -/
def listNum : Nat := 256

/-- A `list_t`: a list head owned by `i`, the head `free_list`, or an entry of `list_buf`. -/
inductive Node (ι : Type) where
  | head (i : ι)
  | free
  | buf (k : Nat)
  deriving DecidableEq

/-- The list fields of every `list_t` and the static `inited`. The owners of the heads are `ι`,
the entries point to `π`s. -/
structure Lists (ι π : Type) where
  links : Links (Node ι)
  ptr : Node ι → Option π
  inited : Bool

variable {ι π : Type} [DecidableEq ι]

namespace Lists

def listAddNext (h : Lists ι π) (list ptr : Node ι) : Lists ι π :=
  { h with links := h.links.addNext list ptr }

def listEmpty (h : Lists ι π) (list : Node ι) : Bool := list == h.links.next list

/-- `none` is the failed assertion that the list is not empty. -/
def listRemovePrev (h : Lists ι π) (list : Node ι) : Option (Node ι × Lists ι π) :=
  if h.listEmpty list then none
  else
    let ptr := h.links.prev list
    some (ptr, { h with links := h.links.unlink ptr })

/-- `init_list`, with the `list_init(&free_list)` it starts with: `inited` is set by then. -/
def initList (h : Lists ι π) : Lists ι π :=
  (List.range listNum).foldl (fun h i => h.listAddNext .free (.buf i))
    { h with links := h.links.reset .free, inited := true }

def listInit (h : Lists ι π) (list : Node ι) : Lists ι π :=
  let h := if h.inited then h else h.initList
  { h with links := h.links.reset list }

/-- `none` is the failed assertion that `free_list` is not empty. -/
def listEnqueue (h : Lists ι π) (list : Node ι) (ptr : π) : Option (Lists ι π) := do
  let (l, h) ← h.listRemovePrev .free
  let h := { h with ptr := Function.update h.ptr l (some ptr) }
  return h.listAddNext list l

/-- `list_enqueue` with the entry that it returns. -/
def listEnqueueEntry (h : Lists ι π) (list : Node ι) (ptr : π) : Option (Node ι × Lists ι π) := do
  let (l, h) ← h.listRemovePrev .free
  let h := { h with ptr := Function.update h.ptr l (some ptr) }
  return (l, h.listAddNext list l)

def listDequeue (h : Lists ι π) (list : Node ι) : Option (Option π × Lists ι π) := do
  if h.listEmpty list then return (none, h)
  let (l, h) ← h.listRemovePrev list
  return (h.ptr l, h.listAddNext .free l)

/-- `list_remove`, which does not use its first argument. -/
def listRemove (h : Lists ι π) (entry : Node ι) : Lists ι π :=
  let prev := Function.update h.links.prev (h.links.next entry) (h.links.prev entry)
  let next := Function.update h.links.next (prev entry) (h.links.next entry)
  { h with links := ⟨next, prev⟩ }.listAddNext .free entry

end Lists

open TinyOS.Klib.Lists

/-! ## The queues behind the lists -/

/-- `q i` are the entries of the list of each head in `dom`, newest first, and `fr` those of
`free_list`; `loc` names the one list an entry is on (`none` for the free list). -/
structure Shape (dom : ι → Prop) (h : Lists ι π) (loc : Nat → Option ι) (q : ι → List Nat) (fr : List Nat) :
    Prop where
  inited : h.inited = true
  ring : ∀ i, dom i → h.links.Ring (.head i) ((q i).map .buf)
  free : h.links.Ring .free (fr.map .buf)
  memQueue : ∀ i, dom i → ∀ k, k ∈ q i ↔ k < listNum ∧ loc k = some i
  memFree : ∀ k, k ∈ fr ↔ k < listNum ∧ loc k = none
  locDom : ∀ k < listNum, ∀ i, loc k = some i → dom i

/-- The lists of the heads in `dom` hold the queues `wait`, oldest entry first. -/
def Queues (dom : ι → Prop) (h : Lists ι π) (wait : ι → List π) : Prop :=
  ∃ loc q fr, Shape dom h loc q fr ∧
    ∀ i, dom i → (q i).map (fun k => h.ptr (.buf k)) = ((wait i).map some).reverse

omit [DecidableEq ι] in
theorem Queues.congr {dom : ι → Prop} {h : Lists ι π} {wait wait' : ι → List π} (hq : Queues dom h wait)
    (he : ∀ i, dom i → wait' i = wait i) : Queues dom h wait' := by
  obtain ⟨loc, q, fr, hs, hw⟩ := hq
  exact ⟨loc, q, fr, hs, fun i hi => by rw [he i hi]; exact hw i hi⟩

/-! ## list_init -/

/-- Adding the entries below `n` to an empty free list. -/
theorem fold_addNext (h : Lists ι π) (hr : h.links.Ring .free []) (n : Nat) :
    let h' := (List.range n).foldl (fun h i => h.listAddNext .free (.buf i)) h
    h'.inited = h.inited ∧ h'.links.Ring .free ((List.range n).reverse.map .buf) := by
  induction n with
  | zero => simpa using hr
  | succ n ih =>
    simp only [List.range_succ, List.foldl_append, List.foldl_cons, List.foldl_nil, List.reverse_append,
      List.reverse_cons, List.reverse_nil, List.nil_append, List.cons_append, List.map_cons] at ih ⊢
    refine ⟨ih.1, Links.ring_addNext ih.2 ?_⟩
    simp

theorem initList_shape (h : Lists ι π) :
    Shape (fun _ => False) h.initList (fun _ => none) (fun _ => []) (List.range listNum).reverse := by
  have hf := fold_addNext { h with links := h.links.reset .free, inited := true } (Links.ring_reset _ _) listNum
  refine ⟨hf.1, ?_, hf.2, ?_, ?_, ?_⟩ <;> simp

theorem initList_queues (h : Lists ι π) (wait : ι → List π) : Queues (fun _ => False) h.initList wait :=
  ⟨_, _, _, initList_shape h, fun _ hi => hi.elim⟩

omit [DecidableEq ι] in
theorem head_not_mem {i x : ι} (hix : i ≠ x) (l : List Nat) : Node.head x ∉ Node.head i :: l.map .buf := by
  simp [hix.symm]

theorem Shape.reset {dom : ι → Prop} {h : Lists ι π} {loc : Nat → Option ι} {q : ι → List Nat} {fr : List Nat}
    (hs : Shape dom h loc q fr) (x : ι) (hx : dom x → q x = []) :
    Shape (fun i => dom i ∨ i = x) { h with links := h.links.reset (.head x) } loc (Function.update q x []) fr := by
  -- no entry is on the list of `x`, whether or not `x` was set up before
  have hloc : ∀ k < listNum, loc k ≠ some x := by
    intro k hk he
    have hd := hs.locDom k hk x he
    simpa [hx hd] using (hs.memQueue x hd k).2 ⟨hk, he⟩
  refine ⟨hs.inited, ?_, ?_, ?_, hs.memFree, ?_⟩
  · intro i hi
    by_cases hix : i = x
    · subst hix; simpa using Links.ring_reset h.links (Node.head i)
    · rw [Function.update_of_ne hix]
      exact Links.ring_reset_of_not_mem (hs.ring i (hi.resolve_right hix)) (head_not_mem hix _)
  · exact Links.ring_reset_of_not_mem hs.free (by simp)
  · intro i hi k
    by_cases hix : i = x
    · subst hix
      simpa using hloc k
    · rw [Function.update_of_ne hix]; exact hs.memQueue i (hi.resolve_right hix) k
  · exact fun k hk i hi => .inl (hs.locDom k hk i hi)

theorem reset_queues {dom : ι → Prop} {h : Lists ι π} {wait : ι → List π} (x : ι) (hq : Queues dom h wait)
    (hx : dom x → wait x = []) :
    Queues (fun i => dom i ∨ i = x) { h with links := h.links.reset (.head x) } (Function.update wait x []) := by
  obtain ⟨loc, q, fr, hs, hw⟩ := hq
  have hqx : dom x → q x = [] := fun hd => by simpa [hx hd] using hw x hd
  refine ⟨loc, _, fr, hs.reset x hqx, fun i hi => ?_⟩
  by_cases hix : i = x
  · subst hix; simp
  · rw [Function.update_of_ne hix, Function.update_of_ne hix]; exact hw i (hi.resolve_right hix)

/-- `list_init` of a head sets up an empty queue for it and leaves the other queues alone. -/
theorem listInit_queues {dom : ι → Prop} {h : Lists ι π} {wait : ι → List π} (x : ι)
    (hq : h.inited = true → Queues dom h wait) (hn : h.inited = false → ∀ i, ¬ dom i)
    (hx : dom x → wait x = []) :
    Queues (fun i => dom i ∨ i = x) (h.listInit (.head x)) (Function.update wait x []) := by
  unfold listInit
  cases hi : h.inited with
  | true => exact reset_queues x (hq hi) hx
  | false =>
    have hdom : dom = fun _ => False := funext fun i => eq_false (hn hi i)
    subst hdom
    exact reset_queues x (initList_queues h wait) (fun h => h.elim)

/-! ## list_enqueue and list_dequeue -/

section
variable {dom : ι → Prop} {h : Lists ι π} {loc : Nat → Option ι} {q : ι → List Nat} {fr : List Nat}

theorem listEmpty_iff (hs : Shape dom h loc q fr) {i : ι} (hi : dom i) :
    h.listEmpty (.head i) = true ↔ q i = [] := by
  rw [listEmpty, beq_iff_eq, (hs.ring i hi).next_eq_self, List.map_eq_nil_iff]

theorem listEmpty_free_iff (hs : Shape dom h loc q fr) : h.listEmpty .free = true ↔ fr = [] := by
  rw [listEmpty, beq_iff_eq, hs.free.next_eq_self, List.map_eq_nil_iff]

omit [DecidableEq ι] in
/-- The lists of two heads have no node in common. -/
theorem Shape.disjoint (hs : Shape dom h loc q fr) {i j : ι} (hi : dom i) (hj : dom j) (hij : i ≠ j) :
    ∀ a ∈ Node.head i :: (q i).map .buf, a ∉ Node.head j :: (q j).map .buf := by
  intro a ha ha'
  simp only [List.mem_cons, List.mem_map] at ha ha'
  rcases ha with rfl | ⟨k, hk, rfl⟩ <;> rcases ha' with h' | ⟨k', hk', h'⟩
  · exact hij (Node.head.inj h')
  · cases h'
  · cases h'
  · cases h'
    rw [hs.memQueue i hi] at hk
    rw [hs.memQueue j hj, hk.2] at hk'
    exact hij (Option.some.inj hk'.2)

omit [DecidableEq ι] in
theorem Shape.disjoint_free (hs : Shape dom h loc q fr) {i : ι} (hi : dom i) :
    ∀ a ∈ Node.head i :: (q i).map .buf, a ∉ Node.free :: fr.map .buf := by
  intro a ha ha'
  simp only [List.mem_cons, List.mem_map] at ha ha'
  rcases ha with rfl | ⟨k, hk, rfl⟩ <;> rcases ha' with h' | ⟨k', hk', h'⟩
  · cases h'
  · cases h'
  · cases h'
  · cases h'
    rw [hs.memQueue i hi] at hk
    rw [hs.memFree, hk.2] at hk'
    cases hk'.2

theorem listEnqueue_eq {n : Node ι} {p : π} : h.listEnqueue n p = (h.listEnqueueEntry n p).map Prod.snd := by
  unfold listEnqueue listEnqueueEntry
  cases h.listRemovePrev .free with
  | none => rfl
  | some r => rfl

/-- Enqueueing takes the oldest entry `k` of the free list and puts it behind the head. -/
theorem listEnqueueEntry_shape {k : Nat} (hs : Shape dom h loc q (fr ++ [k])) {i : ι} (hi : dom i) (p : π) :
    ∃ h', h.listEnqueueEntry (.head i) p = some (.buf k, h') ∧ h'.ptr = Function.update h.ptr (.buf k) (some p) ∧
      Shape dom h' (Function.update loc k (some i)) (Function.update q i (k :: q i)) fr := by
  have hfree : h.links.Ring .free (fr.map .buf ++ [.buf k]) := by simpa using hs.free
  have hprev : h.links.prev .free = .buf k := hfree.prev_sentinel
  have hempty : h.listEmpty .free = false := by rw [← Bool.not_eq_true, listEmpty_free_iff hs]; simp
  obtain ⟨hk, hlk⟩ := (hs.memFree k).1 (by simp)
  have hkr : ∀ j, dom j → Node.buf k ∉ Node.head j :: (q j).map .buf := fun j hj => by
    simpa [hs.memQueue j hj, hk] using fun e => by rw [hlk] at e; cases e
  have hkfr : k ∉ fr := by
    have := hfree.nodup
    simp only [List.nodup_cons, List.nodup_append, List.mem_map] at this
    exact fun hk => this.2.2.2 _ ⟨k, hk, rfl⟩ _ (by simp) rfl
  -- after unlinking, every list but the free list is as before
  have hmid : ∀ j, dom j → (h.links.unlink (.buf k)).Ring (.head j) ((q j).map .buf) := fun j hj =>
    Links.ring_unlink_of_disjoint hfree (hs.ring j hj) (by simp)
      fun a ha ha' => hs.disjoint_free hj a ha' (by simpa using ha)
  have hmidf : (h.links.unlink (.buf k)).Ring .free (fr.map .buf) := by
    simpa using Links.ring_unlink (b := []) (by simpa using hfree)
  have heq : h.listEnqueueEntry (.head i) p = some (.buf k,
      ⟨(h.links.unlink (.buf k)).addNext (.head i) (.buf k), Function.update h.ptr (.buf k) (some p), h.inited⟩) := by
    simp [listEnqueueEntry, listRemovePrev, hempty, hprev, listAddNext]
  refine ⟨_, heq, rfl, hs.inited, ?_, ?_, ?_, ?_, ?_⟩
  · intro j hj
    by_cases hij : j = i
    · subst hij
      rw [Function.update_self, List.map_cons]
      exact Links.ring_addNext (hmid j hj) (hkr j hj)
    · rw [Function.update_of_ne hij]
      exact Links.ring_addNext_of_disjoint (hmid i hi) (hmid j hj) (hkr i hi) (hkr j hj)
        (hs.disjoint hi hj (Ne.symm hij))
  · refine Links.ring_addNext_of_disjoint (hmid i hi) hmidf (hkr i hi) (by simpa using hkfr) fun a ha ha' => ?_
    refine hs.disjoint_free hi a ha ?_
    simp only [List.map_append, List.mem_cons, List.mem_append] at ha' ⊢
    tauto
  · intro j hj m
    have := hs.memQueue j hj m
    grind [Function.update_apply]
  · intro m
    have := hs.memFree m
    grind [Function.update_apply]
  · intro m hm j hj
    have := hs.locDom m hm j
    grind [Function.update_apply]

theorem listEnqueue_shape {k : Nat} (hs : Shape dom h loc q (fr ++ [k])) {i : ι} (hi : dom i) (p : π) :
    ∃ h', h.listEnqueue (.head i) p = some h' ∧ h'.ptr = Function.update h.ptr (.buf k) (some p) ∧
      Shape dom h' (Function.update loc k (some i)) (Function.update q i (k :: q i)) fr := by
  obtain ⟨h', he, hp, hs'⟩ := listEnqueueEntry_shape hs hi p
  exact ⟨h', by rw [listEnqueue_eq, he]; rfl, hp, hs'⟩

/-- An entry `k` that leaves the list of a head for the free list. -/
theorem Shape.release {i : ι} {k : Nat} {a b : List Nat} (hs : Shape dom h loc q fr) (hi : dom i)
    (hq : q i = a ++ k :: b) :
    Shape dom ⟨(h.links.unlink (.buf k)).addNext .free (.buf k), h.ptr, h.inited⟩ (Function.update loc k none)
      (Function.update q i (a ++ b)) (k :: fr) := by
  have hring : h.links.Ring (.head i) (a.map .buf ++ .buf k :: b.map .buf) := by simpa [hq] using hs.ring i hi
  obtain ⟨hk, hlk⟩ := (hs.memQueue i hi k).1 (by simp [hq])
  have hkfr : (Node.buf k : Node ι) ∉ Node.free :: fr.map .buf := by
    simpa [hs.memFree, hk] using fun e => by rw [hlk] at e; cases e
  have hkr : ∀ j, dom j → j ≠ i → Node.buf k ∉ Node.head j :: (q j).map .buf := fun j hj hij => by
    simpa [hs.memQueue j hj, hk, hlk] using hij.symm
  have hkq : k ∉ a ++ b := by
    have hnd : (q i).Nodup := ((List.nodup_cons.1 (hs.ring i hi).nodup).2).of_map _
    rw [hq] at hnd
    exact (List.nodup_middle.1 hnd).notMem
  have hfree : (h.links.unlink (.buf k)).Ring .free (fr.map .buf) :=
    Links.ring_unlink_of_disjoint hring hs.free (by simp)
      fun a ha => hs.disjoint_free hi a (by simpa [hq] using ha)
  have hmid : ∀ j, dom j → (h.links.unlink (.buf k)).Ring (.head j) ((Function.update q i (a ++ b) j).map .buf) := by
    intro j hj
    by_cases hij : j = i
    · subst hij
      simpa using Links.ring_unlink hring
    · rw [Function.update_of_ne hij]
      exact Links.ring_unlink_of_disjoint hring (hs.ring j hj) (by simp)
        fun a ha => hs.disjoint hi hj (Ne.symm hij) a (by simpa [hq] using ha)
  have hkr' : ∀ j, dom j → Node.buf k ∉ Node.head j :: (Function.update q i (a ++ b) j).map .buf := by
    intro j hj
    by_cases hij : j = i
    · subst hij; simpa using hkq
    · rw [Function.update_of_ne hij]; exact hkr j hj hij
  refine ⟨hs.inited, ?_, ?_, ?_, ?_, ?_⟩
  · intro j hj
    refine Links.ring_addNext_of_disjoint hfree (hmid j hj) hkfr (hkr' j hj) fun c hc hc' => ?_
    refine hs.disjoint_free hj c ?_ hc
    by_cases hij : j = i
    · subst hij
      rw [Function.update_self] at hc'
      simp only [hq, List.map_append, List.map_cons, List.mem_cons, List.mem_append] at hc' ⊢
      tauto
    · rwa [Function.update_of_ne hij] at hc'
  · exact Links.ring_addNext hfree hkfr
  · intro j hj m
    have := hs.memQueue j hj m
    grind [Function.update_apply]
  · intro m
    have := hs.memFree m
    grind [Function.update_apply]
  · intro m hm j hj
    have := hs.locDom m hm j
    grind [Function.update_apply]

/-- Dequeueing takes the oldest entry `k` of the head's list and puts it on the free list. -/
theorem listDequeue_shape {i : ι} {k : Nat} {q' : List Nat} (hs : Shape dom h loc q fr) (hi : dom i)
    (hq : q i = q' ++ [k]) :
    ∃ h', h.listDequeue (.head i) = some (h.ptr (.buf k), h') ∧ h'.ptr = h.ptr ∧
      Shape dom h' (Function.update loc k none) (Function.update q i q') (k :: fr) := by
  have hring : h.links.Ring (.head i) (q'.map .buf ++ [.buf k]) := by simpa [hq] using hs.ring i hi
  have hprev : h.links.prev (.head i) = .buf k := hring.prev_sentinel
  have hempty : h.listEmpty (.head i) = false := by rw [← Bool.not_eq_true, listEmpty_iff hs hi, hq]; simp
  have hrel := hs.release hi hq
  rw [List.append_nil] at hrel
  have heq : h.listDequeue (.head i) = some (h.ptr (.buf k),
      ⟨(h.links.unlink (.buf k)).addNext .free (.buf k), h.ptr, h.inited⟩) := by
    simp [listDequeue, listRemovePrev, hempty, hprev, listAddNext]
  exact ⟨_, heq, rfl, hrel⟩

/-- Removing an entry `k` of a head's list puts it on the free list. -/
theorem listRemove_shape {i : ι} {k : Nat} {a b : List Nat} (hs : Shape dom h loc q fr) (hi : dom i)
    (hq : q i = a ++ k :: b) :
    (h.listRemove (.buf k)).ptr = h.ptr ∧
      Shape dom (h.listRemove (.buf k)) (Function.update loc k none) (Function.update q i (a ++ b)) (k :: fr) := by
  have heq : h.listRemove (.buf k) = ⟨(h.links.unlink (.buf k)).addNext .free (.buf k), h.ptr, h.inited⟩ := by
    unfold listRemove Links.unlink listAddNext
    simp only [Function.update_apply, ite_self]
  rw [heq]
  exact ⟨rfl, hs.release hi hq⟩

end

/-! ## The lists are queues -/

section
variable {dom : ι → Prop} {h : Lists ι π} {wait : ι → List π}

theorem listDequeue_nil (hq : Queues dom h wait) {i : ι} (hi : dom i) (hw : wait i = []) :
    h.listDequeue (.head i) = some (none, h) := by
  obtain ⟨loc, q, fr, hs, hqw⟩ := hq
  have hqi : q i = [] := by simpa [hw] using hqw i hi
  have hempty : h.listEmpty (.head i) = true := (listEmpty_iff hs hi).2 hqi
  simp [listDequeue, hempty]

/-- Dequeueing from a nonempty queue returns its oldest entry. -/
theorem listDequeue_cons (hq : Queues dom h wait) {i : ι} (hi : dom i) {p : π} {rest : List π}
    (hw : wait i = p :: rest) :
    ∃ h', h.listDequeue (.head i) = some (some p, h') ∧ Queues dom h' (Function.update wait i rest) := by
  obtain ⟨loc, q, fr, hs, hqw⟩ := hq
  have hqi := hqw i hi
  rw [hw, List.map_cons, List.reverse_cons] at hqi
  obtain ⟨q', k, hk⟩ : ∃ q' k, q i = q' ++ [k] := by
    rcases List.eq_nil_or_concat (q i) with h0 | ⟨q', k, h0⟩
    · rw [h0] at hqi; simp at hqi
    · exact ⟨q', k, by simpa using h0⟩
  rw [hk, List.map_append] at hqi
  obtain ⟨h1, h2⟩ := List.append_inj' hqi rfl
  obtain ⟨h', hd, hp, hs'⟩ := listDequeue_shape hs hi hk
  refine ⟨h', by rw [hd]; simp_all, _, _, _, hs', fun j hj => ?_⟩
  rw [hp]
  by_cases hij : j = i
  · subst hij; simpa using h1
  · rw [Function.update_of_ne hij, Function.update_of_ne hij]; exact hqw j hj

/-- A call of `list_enqueue` that passes its assertion appends to the queue. -/
theorem listEnqueue_some (hq : Queues dom h wait) {i : ι} (hi : dom i) {p : π} {h' : Lists ι π}
    (he : h.listEnqueue (.head i) p = some h') : Queues dom h' (Function.update wait i (wait i ++ [p])) := by
  obtain ⟨loc, q, fr, hs, hqw⟩ := hq
  rcases List.eq_nil_or_concat fr with rfl | ⟨fr', k, rfl⟩
  · have hempty := (listEmpty_free_iff hs).2 rfl
    simp [listEnqueue, listRemovePrev, hempty] at he
  · rw [List.concat_eq_append] at hs
    obtain ⟨hk, hlk⟩ := (hs.memFree k).1 (by simp)
    obtain ⟨h'', he', hp, hs'⟩ := listEnqueue_shape hs hi p
    cases he.symm.trans he'
    refine ⟨_, _, _, hs', fun j hj => ?_⟩
    have hold : (q j).map (fun m => h'.ptr (.buf m)) = (q j).map fun m => h.ptr (.buf m) := by
      refine List.map_congr_left fun m hm => ?_
      have : m ≠ k := by rintro rfl; rw [hs.memQueue j hj, hlk] at hm; cases hm.2
      simp [hp, this]
    by_cases hij : j = i
    · subst hij
      rw [Function.update_self, Function.update_self, List.map_cons, hold, hqw j hj, hp]
      simp
    · rw [Function.update_of_ne hij, Function.update_of_ne hij, hold, hqw j hj]

/-- When `list_enqueue` finds `free_list` empty, all 256 entries wait in the queues. -/
theorem listEnqueue_none (hq : Queues dom h wait) {n : Node ι} {p : π} (he : h.listEnqueue n p = none)
    (hnd : ∀ i, dom i → (wait i).Nodup)
    (honce : ∀ i j, dom i → dom j → ∀ x, x ∈ wait i → x ∈ wait j → i = j) :
    ∃ l : List π, l.Nodup ∧ l.length = listNum ∧ ∀ x ∈ l, ∃ i, dom i ∧ x ∈ wait i := by
  obtain ⟨loc, q, fr, hs, hqw⟩ := hq
  have hfr : fr = [] := by
    rw [← listEmpty_free_iff hs]
    by_contra hne
    simp [listEnqueue, listRemovePrev, hne] at he
  subst hfr
  -- every entry is on the list of some head and points to a waiter of that head
  have hall : ∀ k < listNum, ∃ i x, dom i ∧ k ∈ q i ∧ h.ptr (.buf k) = some x ∧ x ∈ wait i := by
    intro k hk
    cases hl : loc k with
    | none => simpa using (hs.memFree k).2 ⟨hk, hl⟩
    | some i =>
      have hi := hs.locDom k hk i hl
      have hkq := (hs.memQueue i hi k).2 ⟨hk, hl⟩
      have hm : h.ptr (.buf k) ∈ ((wait i).map some).reverse := hqw i hi ▸ List.mem_map_of_mem hkq
      obtain ⟨x, hx, hxe⟩ := List.mem_map.1 (List.mem_reverse.1 hm)
      exact ⟨i, x, hi, hkq, hxe.symm, hx⟩
  have hinj : ∀ k < listNum, ∀ m < listNum, h.ptr (.buf k) = h.ptr (.buf m) → k = m := by
    intro k hk m hm he'
    obtain ⟨i, x, hi, hkq, hx, hxw⟩ := hall k hk
    obtain ⟨j, y, hj, hmq, hy, hyw⟩ := hall m hm
    have hxy : x = y := Option.some.inj (by rw [← hx, he', hy])
    subst hxy
    obtain rfl := honce i j hi hj x hxw hyw
    have hn : ((q i).map fun k => h.ptr (.buf k)).Nodup := by
      rw [hqw i hi, List.nodup_reverse]
      exact (hnd i hi).map (Option.some_injective _)
    exact List.inj_on_of_nodup_map hn hkq hmq he'
  choose i x hi _ hx hxw using hall
  refine ⟨(List.range listNum).pmap x fun k hk => List.mem_range.1 hk, ?_, by simp, ?_⟩
  · refine List.Nodup.pmap (fun k hk m hm he' => hinj k hk m hm ?_) List.nodup_range
    rw [hx k hk, hx m hm, he']
  · intro y hy
    obtain ⟨k, hk, rfl⟩ := List.mem_pmap.1 hy
    exact ⟨i k (List.mem_range.1 hk), hi _ _, hxw _ _⟩

end

end TinyOS.Klib
