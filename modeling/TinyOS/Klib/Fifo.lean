/-
The pooled lists under any sequence of calls: each list holds the FIFO queue of what was enqueued and not
yet dequeued or removed, and every entry of `list_buf` is on one list or free.
-/
import TinyOS.Klib.List
import TinyOS.Lib.Run

namespace TinyOS.Klib

open TinyOS.Lib TinyOS.Klib.Lists

variable {ι π : Type} [DecidableEq ι]

/-- A call on the list of a head, with the entry that `list_enqueue` and the pointer that `list_dequeue`
returned. -/
inductive Op (ι π : Type) where
  | init (i : ι)
  | enqueue (i : ι) (ptr : π) (entry : Nat)
  | dequeue (i : ι) (ptr : Option π)
  | remove (i : ι) (entry : Nat)

/-! ## What the lists are for -/

def fifoStep (q : ι → List (Nat × π)) : Op ι π → ι → List (Nat × π)
  | .init i => Function.update q i []
  | .enqueue i ptr entry => Function.update q i (q i ++ [(entry, ptr)])
  | .dequeue i _ => Function.update q i (q i).tail
  | .remove i entry => Function.update q i ((q i).filter fun e => e.1 ≠ entry)

/-- The queue of each head after the calls, oldest entry first. -/
def fifo (ops : List (Op ι π)) : ι → List (Nat × π) := ops.foldl fifoStep fun _ => []

/-- The heads that were set up. -/
def heads (ops : List (Op ι π)) : List ι := ops.filterMap fun | .init i => some i | _ => none

/-- How many entries are in use. -/
def inUse (ops : List (Op ι π)) : Nat := ((heads ops).map fun i => (fifo ops i).length).sum

theorem fifo_snoc (ops : List (Op ι π)) (op : Op ι π) : fifo (ops ++ [op]) = fifoStep (fifo ops) op := by
  unfold fifo
  rw [List.foldl_append]
  rfl

omit [DecidableEq ι] in
theorem mem_heads_snoc {ops : List (Op ι π)} {op : Op ι π} {j : ι} :
    j ∈ heads (ops ++ [op]) ↔ j ∈ heads ops ∨ op = .init j := by
  unfold heads
  rw [List.filterMap_append, List.mem_append]
  cases op <;> simp [eq_comm]

/-- The lists, and the calls so far. -/
structure Pool (ι π : Type) where
  lists : Lists ι π
  ops : List (Op ι π)

/-- Heads are set up once, a list is used when it is set up, entries are removed from the list they are on,
and nothing is enqueued when all entries are in use. -/
inductive Step : Pool ι π → Op ι π → Pool ι π → Prop
  | init {h : Lists ι π} {ops : List (Op ι π)} {i : ι} : i ∉ heads ops →
      Step ⟨h, ops⟩ (.init i) ⟨h.listInit (.head i), ops ++ [.init i]⟩
  | enqueue {h h' : Lists ι π} {ops : List (Op ι π)} {i : ι} {ptr : π} {k : Nat} : i ∈ heads ops → inUse ops < listNum →
      h.listEnqueueEntry (.head i) ptr = some (.buf k, h') →
      Step ⟨h, ops⟩ (.enqueue i ptr k) ⟨h', ops ++ [.enqueue i ptr k]⟩
  | dequeue {h h' : Lists ι π} {ops : List (Op ι π)} {i : ι} {r : Option π} : i ∈ heads ops →
      h.listDequeue (.head i) = some (r, h') → Step ⟨h, ops⟩ (.dequeue i r) ⟨h', ops ++ [.dequeue i r]⟩
  | remove {h : Lists ι π} {ops : List (Op ι π)} {i : ι} {k : Nat} : i ∈ heads ops → k ∈ (fifo ops i).map Prod.fst →
      Step ⟨h, ops⟩ (.remove i k) ⟨h.listRemove (.buf k), ops ++ [.remove i k]⟩

/-! ## The invariant -/

/-- The list of each head holds the entries of its queue, and `free_list` those of `fr`. -/
structure Holds (s : Pool ι π) (loc : Nat → Option ι) (fr : List Nat) : Prop where
  shape : Shape (· ∈ heads s.ops) s.lists loc (fun i => ((fifo s.ops i).map Prod.fst).reverse) fr
  ptr : ∀ i ∈ heads s.ops, ∀ e ∈ fifo s.ops i, s.lists.ptr (.buf e.1) = some e.2

section
variable {s s' : Pool ι π} {h h' : Lists ι π} {ops : List (Op ι π)} {loc : Nat → Option ι}
  {fr : List Nat} {i : ι} {k : Nat}

omit [DecidableEq ι] in
theorem Shape.congr {dom dom' : ι → Prop} {q q' : ι → List Nat} (hs : Shape dom h loc q fr) (hd : ∀ i, dom' i ↔ dom i)
    (hq : ∀ i, dom i → q' i = q i) : Shape dom' h loc q' fr where
  inited := hs.inited
  ring i hi := by rw [hq i ((hd i).1 hi)]; exact hs.ring i ((hd i).1 hi)
  free := hs.free
  memQueue i hi := by rw [hq i ((hd i).1 hi)]; exact hs.memQueue i ((hd i).1 hi)
  memFree := hs.memFree
  locDom k hk i hi := (hd i).2 (hs.locDom k hk i hi)

/-- The entries of a queue are distinct. -/
theorem Holds.nodup (hh : Holds s loc fr) (hi : i ∈ heads s.ops) : ((fifo s.ops i).map Prod.fst).Nodup := by
  have := ((List.nodup_cons.1 (hh.shape.ring i hi).nodup).2).of_map _
  exact List.nodup_reverse.1 this

theorem Holds.mem_iff (hh : Holds s loc fr) (hi : i ∈ heads s.ops) :
    k ∈ (fifo s.ops i).map Prod.fst ↔ k < listNum ∧ loc k = some i := by
  rw [← hh.shape.memQueue i hi k, List.mem_reverse]

/-- The entries of the lists when one queue changes. -/
theorem entries_update (q : ι → List (Nat × π)) (i j : ι) (l : List (Nat × π)) :
    ((Function.update q i l j).map Prod.fst).reverse =
      Function.update (fun j => ((q j).map Prod.fst).reverse) i (l.map Prod.fst).reverse j := by
  by_cases hj : j = i
  · subst hj
    rw [Function.update_self, Function.update_self]
  · rw [Function.update_of_ne hj, Function.update_of_ne hj]

theorem Holds.init (hi : i ∉ heads ops) (hh : h.inited = true → ∃ loc fr, Holds ⟨h, ops⟩ loc fr)
    (hn : h.inited = false → heads ops = []) :
    ∃ loc fr, Holds ⟨h.listInit (.head i), ops ++ [.init i]⟩ loc fr := by
  have hd : ∀ j, j ∈ heads (ops ++ [.init i]) ↔ j ∈ heads ops ∨ j = i := fun j => by
    rw [mem_heads_snoc, Op.init.injEq, eq_comm (a := i)]
  have hf : fifo (ops ++ [.init i]) = Function.update (fifo ops) i [] := fifo_snoc _ _
  have hptr : ∀ j ∈ heads (ops ++ [.init i]), ∀ e ∈ fifo (ops ++ [.init i]) j, j ∈ heads ops ∧ e ∈ fifo ops j := by
    intro j hj e he
    rw [hf] at he
    by_cases hji : j = i
    · subst hji
      rw [Function.update_self] at he
      cases he
    · rw [Function.update_of_ne hji] at he
      exact ⟨((hd j).1 hj).resolve_right hji, he⟩
  unfold listInit
  cases hin : h.inited with
  | true =>
    obtain ⟨loc, fr, hh⟩ := hh hin
    refine ⟨loc, fr, (hh.shape.reset i fun hc => absurd hc hi).congr hd fun j _ => ?_, fun j hj e he => ?_⟩
    · show ((fifo (ops ++ [.init i]) j).map Prod.fst).reverse = _
      rw [hf, entries_update]
      rfl
    · obtain ⟨hj', he'⟩ := hptr j hj e he
      exact hh.ptr j hj' e he'
  | false =>
    have hno := hn hin
    refine ⟨_, _, ((initList_shape h).reset i fun hc => hc.elim).congr (fun j => ?_) fun j hj => ?_,
      fun j hj e he => ?_⟩
    · show j ∈ heads (ops ++ [.init i]) ↔ _
      rw [hd, hno]
      simp
    · show ((fifo (ops ++ [.init i]) j).map Prod.fst).reverse = _
      obtain rfl := hj.resolve_left id
      rw [hf, Function.update_self, Function.update_self]
      rfl
    · obtain ⟨hj', -⟩ := hptr j hj e he
      rw [hno] at hj'
      cases hj'

/-- While not all entries are in use, one is free. -/
theorem Holds.exists_free (hh : Holds s loc fr) (hu : inUse s.ops < listNum) : fr ≠ [] := by
  rintro rfl
  have hsub : List.range listNum ⊆ (heads s.ops).flatMap fun i => (fifo s.ops i).map Prod.fst := fun k hk => by
    have hk := List.mem_range.1 hk
    cases hl : loc k with
    | none => exact absurd ((hh.shape.memFree k).2 ⟨hk, hl⟩) List.not_mem_nil
    | some i =>
      have hi := hh.shape.locDom k hk i hl
      exact List.mem_flatMap.2 ⟨i, hi, (hh.mem_iff hi).2 ⟨hk, hl⟩⟩
  have hle := (List.nodup_range.subperm hsub).length_le
  rw [List.length_range, List.length_flatMap] at hle
  simp only [List.length_map] at hle
  unfold inUse at hu
  omega

omit [DecidableEq ι] in
theorem heads_snoc {op : Op ι π} (hop : ∀ j, op ≠ .init j) (j : ι) : j ∈ heads (ops ++ [op]) ↔ j ∈ heads ops := by
  rw [mem_heads_snoc]
  exact or_iff_left (hop j)

/-- A call that changes the queue of one head, and the pointers of no entry that it keeps. -/
theorem Holds.update {op : Op ι π} {l : List (Nat × π)} {loc' : Nat → Option ι} {fr' : List Nat}
    (hop : ∀ j, op ≠ .init j) (hf : fifo (ops ++ [op]) = Function.update (fifo ops) i l)
    (hs : Shape (· ∈ heads ops) h' loc' (Function.update (fun j => ((fifo ops j).map Prod.fst).reverse) i
    (l.map Prod.fst).reverse) fr') (hp : ∀ e ∈ l, h'.ptr (.buf e.1) = some e.2)
    (hkeep : ∀ j ∈ heads ops, j ≠ i → ∀ e ∈ fifo ops j, h'.ptr (.buf e.1) = some e.2) :
    Holds ⟨h', ops ++ [op]⟩ loc' fr' := by
  refine ⟨hs.congr (heads_snoc hop) fun j _ => ?_, fun j hj e he => ?_⟩
  · show ((fifo (ops ++ [op]) j).map Prod.fst).reverse = _
    rw [hf, entries_update]
  · have hj' := (heads_snoc hop j).1 hj
    change e ∈ fifo (ops ++ [op]) j at he
    rw [hf] at he
    by_cases hji : j = i
    · subst hji
      rw [Function.update_self] at he
      exact hp e he
    · rw [Function.update_of_ne hji] at he
      exact hkeep j hj' hji e he

/-- `list_enqueue` finds a free entry, which is on no list, and appends it. -/
theorem Holds.enqueue (hh : Holds ⟨h, ops⟩ loc fr) (hi : i ∈ heads ops) (hu : inUse ops < listNum) (ptr : π) :
    ∃ k h', h.listEnqueueEntry (.head i) ptr = some (.buf k, h') ∧
      ∃ loc' fr', Holds ⟨h', ops ++ [.enqueue i ptr k]⟩ loc' fr' := by
  obtain ⟨fr', k, rfl⟩ : ∃ fr' k, fr = fr' ++ [k] :=
    ⟨fr.dropLast, fr.getLast (hh.exists_free hu), (List.dropLast_append_getLast _).symm⟩
  obtain ⟨h', henq, hp, hs⟩ := listEnqueueEntry_shape hh.shape hi ptr
  have hlk := ((hh.shape.memFree k).1 (by simp)).2
  have hne : ∀ j ∈ heads ops, ∀ e ∈ fifo ops j, h'.ptr (.buf e.1) = some e.2 := fun j hj e he => by
    have hek : e.1 ≠ k := by
      intro hc
      have hloc := ((hh.mem_iff hj).1 (List.mem_map_of_mem (f := Prod.fst) he)).2
      rw [hc, hlk] at hloc
      cases hloc
    rw [hp, Function.update_of_ne (by simpa using hek)]
    exact hh.ptr j hj e he
  refine ⟨k, h', henq, Function.update loc k (some i), fr',
    Holds.update (fun j => by simp) (fifo_snoc _ _) ?_ ?_ fun j hj _ => hne j hj⟩
  · rw [List.map_append, List.reverse_append]
    exact hs
  · intro e he
    rcases List.mem_append.1 he with he | he
    · exact hne i hi e he
    · rw [List.mem_singleton.1 he, hp, Function.update_self]

/-- `list_dequeue` returns the oldest pointer and frees its entry, or returns NULL for an empty list. -/
theorem Holds.dequeue (hh : Holds ⟨h, ops⟩ loc fr) (hi : i ∈ heads ops) :
    ∃ h', h.listDequeue (.head i) = some ((fifo ops i).head?.map Prod.snd, h') ∧
      ∀ r, ∃ loc' fr', Holds ⟨h', ops ++ [.dequeue i r]⟩ loc' fr' := by
  cases hq : fifo ops i with
  | nil =>
    have hempty : h.listEmpty (.head i) = true :=
      (listEmpty_iff hh.shape hi).2 (by show ((fifo ops i).map _).reverse = []; rw [hq]; rfl)
    refine ⟨h, by simp [listDequeue, hempty], fun r => ⟨loc, fr, ?_⟩⟩
    have hsame : Function.update (fifo ops) i (fifo ops i).tail = fifo ops := by
      rw [hq, List.tail_nil, ← hq, Function.update_eq_self]
    have hf : fifo (ops ++ [.dequeue i r]) = fifo ops := (fifo_snoc _ _).trans hsame
    refine ⟨hh.shape.congr (heads_snoc fun j => by simp) fun j _ => ?_, fun j hj e he => ?_⟩
    · show ((fifo (ops ++ [.dequeue i r]) j).map Prod.fst).reverse = _
      rw [hf]
    · change e ∈ fifo (ops ++ [.dequeue i r]) j at he
      rw [hf] at he
      exact hh.ptr j ((heads_snoc (fun j => by simp) j).1 hj) e he
  | cons e l =>
    have hold : ((fifo ops i).map Prod.fst).reverse = (l.map Prod.fst).reverse ++ [e.1] := by
      rw [hq, List.map_cons, List.reverse_cons]
    obtain ⟨h', hd, hp, hs⟩ := listDequeue_shape hh.shape hi hold
    have hptr := hh.ptr i hi e (by show e ∈ fifo ops i; rw [hq]; exact List.mem_cons_self)
    refine ⟨h', by rw [hd]; exact congrArg (fun p => some (p, h')) hptr, fun r => ⟨_, _, Holds.update (fun j => by simp)
      (fifo_snoc _ _) (l := (fifo ops i).tail) (by rw [hq]; exact hs) (fun e' he' => ?_) fun j hj _ e' he' => ?_⟩⟩
    · rw [hp]
      exact hh.ptr i hi e' (List.mem_of_mem_tail he')
    · rw [hp]
      exact hh.ptr j hj e' he'

/-- `list_remove` of an entry of the list frees it. -/
theorem Holds.remove (hh : Holds ⟨h, ops⟩ loc fr) (hi : i ∈ heads ops) (hk : k ∈ (fifo ops i).map Prod.fst) :
    ∃ loc' fr', Holds ⟨h.listRemove (.buf k), ops ++ [.remove i k]⟩ loc' fr' := by
  obtain ⟨e, he, rfl⟩ := List.mem_map.1 hk
  obtain ⟨a, b, hab⟩ := List.append_of_mem he
  have hnd := hh.nodup hi
  change ((fifo ops i).map Prod.fst).Nodup at hnd
  -- the entry is on the list once, so the rest of the queue is what it was
  have hrest : (fifo ops i).filter (fun e' => decide (e'.1 ≠ e.1)) = a ++ b := by
    rw [hab, List.map_append, List.map_cons, List.nodup_middle, List.nodup_cons, ← List.map_append] at hnd
    rw [hab, List.filter_append, List.filter_cons_of_neg (by simp), ← List.filter_append, List.filter_eq_self]
    intro e' he'
    simp only [decide_eq_true_eq]
    exact fun hc => hnd.1 (hc ▸ List.mem_map_of_mem he')
  have hold : ((fifo ops i).map Prod.fst).reverse = (b.map Prod.fst).reverse ++ e.1 :: (a.map Prod.fst).reverse := by
    rw [hab, List.map_append, List.map_cons, List.reverse_append, List.reverse_cons, List.append_assoc,
      List.singleton_append]
  obtain ⟨hp, hs⟩ := listRemove_shape hh.shape hi hold
  refine ⟨Function.update loc e.1 none, e.1 :: fr, Holds.update (fun j => by simp) (fifo_snoc _ _)
    (l := (fifo ops i).filter fun e' => e'.1 ≠ e.1) ?_ (fun e' he' => ?_) fun j hj _ e' he' => ?_⟩
  · rw [hrest, List.map_append, List.reverse_append]
    exact hs
  · rw [hp]
    exact hh.ptr i hi e' (List.mem_of_mem_filter he')
  · rw [hp]
    exact hh.ptr j hj e' he'

end

/-! ## Runs -/

/-- Before the first `list_init` the pool is not set up, and after it the lists hold the queues. -/
def Inv (s : Pool ι π) : Prop :=
  (s.lists.inited = false ∧ heads s.ops = []) ∨ ∃ loc fr, Holds s loc fr

theorem step_inv (s : Pool ι π) (op : Op ι π) (s' : Pool ι π) (hi : Inv s) (hs : Step s op s') : Inv s' := by
  have hholds : ∀ i ∈ heads s.ops, ∃ loc fr, Holds s loc fr := fun i hh =>
    hi.resolve_left fun hc => by rw [hc.2] at hh; cases hh
  cases hs with
  | @init h ops i hnew =>
    refine Or.inr (Holds.init hnew (fun hin => ?_) fun hin => ?_)
    · exact hi.resolve_left fun hc => by rw [hc.1] at hin; cases hin
    · rcases hi with hc | ⟨loc, fr, hh⟩
      · exact hc.2
      · have := hh.shape.inited
        rw [hin] at this
        cases this
  | @enqueue h h' ops i ptr k hmem hu he =>
    obtain ⟨loc, fr, hh⟩ := hholds i hmem
    obtain ⟨k', h'', he', hnext⟩ := hh.enqueue hmem hu ptr
    cases he.symm.trans he'
    exact Or.inr hnext
  | @dequeue h h' ops i r hmem hd =>
    obtain ⟨loc, fr, hh⟩ := hholds i hmem
    obtain ⟨h'', hd', hnext⟩ := hh.dequeue hmem
    cases hd.symm.trans hd'
    exact Or.inr (hnext _)
  | @remove h ops i k hmem hk =>
    obtain ⟨loc, fr, hh⟩ := hholds i hmem
    exact Or.inr (hh.remove hmem hk)

/-- `links` go through the entries `l` from the head on and back. -/
structure Around (links : Links (Node ι)) (x : Node ι) (l : List Nat) : Prop where
  ring : links.Ring x (l.map .buf)
  inverse : ∀ a ∈ x :: l.map .buf, links.prev (links.next a) = a ∧ links.next (links.prev a) = a

/-- The lists hold the queues of their heads, and each of the 256 entries is on one list, once. -/
structure Conserved (s : Pool ι π) (fr : List Nat) : Prop where
  lists : ∀ i ∈ heads s.ops, Around s.lists.links (.head i) ((fifo s.ops i).map Prod.fst).reverse
  free : Around s.lists.links .free fr
  ptr : ∀ i ∈ heads s.ops, ∀ e ∈ fifo s.ops i, s.lists.ptr (.buf e.1) = some e.2
  distinct : fr.Nodup ∧ ∀ i ∈ heads s.ops, ((fifo s.ops i).map Prod.fst).Nodup
  once : ∀ k, k < listNum ↔ (k ∈ fr ∨ ∃ i ∈ heads s.ops, k ∈ (fifo s.ops i).map Prod.fst)
  apart : ∀ k, ∀ i ∈ heads s.ops, k ∈ (fifo s.ops i).map Prod.fst →
    k ∉ fr ∧ ∀ j ∈ heads s.ops, k ∈ (fifo s.ops j).map Prod.fst → j = i

theorem Holds.conserved {s : Pool ι π} {loc : Nat → Option ι} {fr : List Nat} (hh : Holds s loc fr) :
    Conserved s fr where
  lists i hi := ⟨hh.shape.ring i hi, fun _ ha => (hh.shape.ring i hi).inverse ha⟩
  free := ⟨hh.shape.free, fun _ ha => hh.shape.free.inverse ha⟩
  ptr := hh.ptr
  distinct := ⟨((List.nodup_cons.1 hh.shape.free.nodup).2).of_map _, fun _ hi => hh.nodup hi⟩
  once k := by
    rw [hh.shape.memFree]
    constructor
    · intro hk
      cases hl : loc k with
      | none => exact Or.inl ⟨hk, rfl⟩
      | some i =>
        have hi := hh.shape.locDom k hk i hl
        exact Or.inr ⟨i, hi, (hh.mem_iff hi).2 ⟨hk, hl⟩⟩
    · rintro (⟨hk, -⟩ | ⟨i, hi, hk⟩)
      · exact hk
      · exact ((hh.mem_iff hi).1 hk).1
  apart k i hi hk := by
    have hl := ((hh.mem_iff hi).1 hk).2
    refine ⟨fun hf => ?_, fun j hj hk' => ?_⟩
    · rw [((hh.shape.memFree k).1 hf).2] at hl
      cases hl
    · have hl' := ((hh.mem_iff hj).1 hk').2
      rw [hl] at hl'
      exact (Option.some.inj hl').symm

/-- After any sequence of calls the lists are the FIFO queues of their pointers and conserve the entries;
`list_dequeue` returns the oldest pointer, or NULL when the queue is empty, and `list_enqueue` succeeds as
long as an entry is not in use. -/
theorem lists_fifo {h : Lists ι π} {ops : List (Op ι π)} {s : Pool ι π} (h0 : h.inited = false)
    (hr : Run Step ⟨h, []⟩ ops s) :
    s.ops = ops ∧ (heads ops ≠ [] → ∃ free, Conserved s free) ∧
      (∀ i ∈ heads ops, ∃ h', s.lists.listDequeue (.head i) = some ((fifo ops i).head?.map Prod.snd, h')) ∧
      (inUse ops < listNum → ∀ i ∈ heads ops, ∀ p, ∃ k h', s.lists.listEnqueueEntry (.head i) p =
      some (.buf k, h')) := by
  have hops : s.ops = ops := by
    refine hr.invariant_log (I := fun l s => s.ops = l) (fun l t op u hl hs => ?_) rfl
    cases hs <;> exact congrArg (· ++ _) hl
  have hinv : Inv s := hr.invariant step_inv (Or.inl ⟨h0, rfl⟩)
  have hholds : heads ops ≠ [] → ∃ loc fr, Holds s loc fr := fun hne =>
    hinv.resolve_left fun hc => hne (hops ▸ hc.2)
  refine ⟨hops, fun hne => ?_, fun i hi => ?_, fun hu i hi p => ?_⟩
  · obtain ⟨loc, fr, hh⟩ := hholds hne
    exact ⟨fr, hh.conserved⟩
  · obtain ⟨loc, fr, hh⟩ := hholds (List.ne_nil_of_mem hi)
    subst hops
    obtain ⟨h', he, -⟩ := hh.dequeue hi
    exact ⟨h', he⟩
  · obtain ⟨loc, fr, hh⟩ := hholds (List.ne_nil_of_mem hi)
    subst hops
    obtain ⟨k, h', he, -⟩ := hh.enqueue hi hu p
    exact ⟨k, h', he⟩

/-- Pointers 7, 8 and 9 go onto one list, 5 onto another one, and the entry of 8 is removed: 7, 9 and 5 come out. -/
theorem lists_fifo_demo : ∃ (k₁ k₂ k₃ k₄ : Nat) (s : Pool Bool Nat),
    Run Step ⟨⟨⟨id, id⟩, fun _ => none, false⟩, []⟩ [.init false, .init true, .enqueue false 7 k₁, .enqueue false 8 k₂,
      .enqueue true 5 k₃, .enqueue false 9 k₄, .remove false k₂, .dequeue false (some 7), .dequeue false (some 9)] s ∧
      (∃ h', s.lists.listDequeue (.head true) = some (some 5, h')) ∧
      ∃ h', s.lists.listDequeue (.head false) = some (none, h') := by
  have h0 : (⟨⟨id, id⟩, fun _ => none, false⟩ : Lists Bool Nat).inited = false := rfl
  have r1 : Run Step ⟨⟨⟨id, id⟩, fun _ => none, false⟩, []⟩ [Op.init false] (⟨_, [Op.init false]⟩ : Pool Bool Nat) :=
    Run.single (Step.init List.not_mem_nil)
  have r2 := r1.snoc (Step.init (show true ∉ heads [Op.init false] by decide))
  obtain ⟨k₁, s₁, e₁⟩ := (lists_fifo h0 r2).2.2.2 (by decide) false (by decide) 7
  have r3 := r2.snoc (Step.enqueue (by decide) (by decide) e₁)
  obtain ⟨k₂, s₂, e₂⟩ := (lists_fifo h0 r3).2.2.2 (show 1 < 256 by decide) false (by simp [heads]) 8
  have r4 := r3.snoc (Step.enqueue (by simp [heads]) (show 1 < 256 by decide) e₂)
  obtain ⟨k₃, s₃, e₃⟩ := (lists_fifo h0 r4).2.2.2 (show 2 < 256 by decide) true (by simp [heads]) 5
  have r5 := r4.snoc (Step.enqueue (by simp [heads]) (show 2 < 256 by decide) e₃)
  obtain ⟨k₄, s₄, e₄⟩ := (lists_fifo h0 r5).2.2.2 (show 3 < 256 by decide) false (by simp [heads]) 9
  have r6 := r5.snoc (Step.enqueue (by simp [heads]) (show 3 < 256 by decide) e₄)
  -- the entries of a list are distinct
  obtain ⟨fr, hc⟩ := (lists_fifo h0 r6).2.1 (by simp [heads])
  have hd : [k₁, k₂, k₄].Nodup := hc.distinct.2 false (by simp [heads])
  have h12 : k₁ ≠ k₂ := by simp_all
  have h42 : k₄ ≠ k₂ := by
    rintro rfl
    simp at hd
  have hold : k₂ ∈ [k₁, k₂, k₄] := by simp
  have r7 := r6.snoc (Step.remove (show false ∈ heads _ by simp [heads]) hold)
  obtain ⟨s₅, e₅⟩ := (lists_fifo h0 r7).2.2.1 false (by simp [heads])
  simp [fifo, fifoStep, h12, h42] at e₅
  have r8 := r7.snoc (Step.dequeue (show false ∈ heads _ by simp [heads]) e₅)
  obtain ⟨s₆, e₆⟩ := (lists_fifo h0 r8).2.2.1 false (by simp [heads])
  simp [fifo, fifoStep, h12, h42] at e₆
  have r9 := r8.snoc (Step.dequeue (show false ∈ heads _ by simp [heads]) e₆)
  obtain ⟨s₇, e₇⟩ := (lists_fifo h0 r9).2.2.1 true (by simp [heads])
  obtain ⟨s₈, e₈⟩ := (lists_fifo h0 r9).2.2.1 false (by simp [heads])
  simp [fifo, fifoStep, h12, h42] at e₇ e₈
  exact ⟨k₁, k₂, k₃, k₄, _, r9, ⟨s₇, e₇⟩, ⟨s₈, e₈⟩⟩

end TinyOS.Klib
