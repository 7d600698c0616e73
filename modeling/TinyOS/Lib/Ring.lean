/-
Circular doubly linked lists threaded through their nodes, with a sentinel: what inserting a
node behind the sentinel and unlinking a node do to the ring they act on, and that both leave
every ring over other nodes alone.
-/
import Mathlib.Tactic

namespace TinyOS.Lib

variable {α : Type} [DecidableEq α]

/-- The two link fields of every node. -/
structure Links (α : Type) where
  next : α → α
  prev : α → α

namespace Links

/-- The ring of sentinel `x` with members `l` in `next` order: `next` and `prev` step along it and
are mutually inverse. -/
structure Ring (h : Links α) (x : α) (l : List α) : Prop where
  next : (x :: l).map h.next = l ++ [x]
  prev : (l ++ [x]).map h.prev = x :: l
  nodup : (x :: l).Nodup

/-- The node `x` alone. -/
def reset (h : Links α) (x : α) : Links α :=
  ⟨Function.update h.next x x, Function.update h.prev x x⟩

/-- Insert `p` right behind `x`. -/
def addNext (h : Links α) (x p : α) : Links α :=
  let prev := Function.update h.prev p x
  let next := Function.update h.next p (h.next x)
  let next := Function.update next (prev p) p
  ⟨next, Function.update prev (next p) p⟩

/-- Unlink `p` from between its neighbours. -/
def unlink (h : Links α) (p : α) : Links α :=
  let next := Function.update h.next (h.prev p) (h.next p)
  ⟨next, Function.update h.prev (next p) (h.prev p)⟩

/-! ## Frames -/

omit [DecidableEq α] in
theorem ring_congr {h h' : Links α} {x : α} {l : List α} (hr : h.Ring x l)
    (hn : ∀ a ∈ x :: l, h'.next a = h.next a) (hp : ∀ a ∈ x :: l, h'.prev a = h.prev a) : h'.Ring x l := by
  refine ⟨?_, ?_, hr.nodup⟩
  · rw [List.map_congr_left hn, hr.next]
  · rw [List.map_congr_left (fun a ha => hp a (by simpa [or_comm] using ha)), hr.prev]

omit [DecidableEq α] in
theorem Ring.next_mem {h : Links α} {x : α} {l : List α} (hr : h.Ring x l) {a : α} (ha : a ∈ x :: l) :
    h.next a ∈ x :: l := by
  have : h.next a ∈ l ++ [x] := hr.next ▸ List.mem_map_of_mem ha
  simpa [or_comm] using this

omit [DecidableEq α] in
theorem Ring.prev_mem {h : Links α} {x : α} {l : List α} (hr : h.Ring x l) {a : α} (ha : a ∈ x :: l) :
    h.prev a ∈ x :: l :=
  hr.prev ▸ List.mem_map_of_mem (by simpa [or_comm] using ha)

omit [DecidableEq α] in
/-- `next` and `prev` are mutually inverse on a ring. -/
theorem Ring.inverse {h : Links α} {x : α} {l : List α} (hr : h.Ring x l) {a : α} (ha : a ∈ x :: l) :
    h.prev (h.next a) = a ∧ h.next (h.prev a) = a := by
  constructor
  · have hmap : (x :: l).map (h.prev ∘ h.next) = (x :: l).map id := by
      rw [← List.map_map, hr.next, hr.prev, List.map_id]
    exact List.map_inj_left.1 hmap a ha
  · have hmap : (l ++ [x]).map (h.next ∘ h.prev) = (l ++ [x]).map id := by
      rw [← List.map_map, hr.prev, hr.next, List.map_id]
    exact List.map_inj_left.1 hmap a (by simpa [or_comm] using ha)

/-! ## The node alone -/

theorem ring_reset (h : Links α) (x : α) : (h.reset x).Ring x [] :=
  ⟨by simp [reset], by simp [reset], by simp⟩

theorem ring_reset_of_not_mem {h : Links α} {x y : α} {l : List α} (hr : h.Ring y l) (hx : x ∉ y :: l) :
    (h.reset x).Ring y l := by
  refine ring_congr hr ?_ ?_ <;> intro a ha <;> have : a ≠ x := fun e => hx (e ▸ ha) <;> simp [reset, this]

omit [DecidableEq α] in
/-- A ring is empty exactly when its sentinel follows itself. -/
theorem Ring.next_eq_self {h : Links α} {x : α} {l : List α} (hr : h.Ring x l) : x = h.next x ↔ l = [] := by
  have hn := hr.next
  have hd := hr.nodup
  cases l with
  | nil => simpa [eq_comm] using hn
  | cons a t =>
    simp only [List.map_cons, List.cons_append, List.cons.injEq] at hn
    simp only [List.nodup_cons, List.mem_cons, not_or] at hd
    simp [hn.1, hd.1.1]

/-! ## Inserting behind the sentinel -/

theorem addNext_next_self {h : Links α} {x p : α} : (h.addNext x p).next x = p := by simp [addNext]

theorem addNext_next_new {h : Links α} {x p : α} (hp : p ≠ x) : (h.addNext x p).next p = h.next x := by
  simp [addNext, hp]

theorem addNext_next_of_ne {h : Links α} {x p a : α} (hx : a ≠ x) (hp : a ≠ p) :
    (h.addNext x p).next a = h.next a := by
  simp [addNext, hx, hp]

theorem addNext_prev_first {h : Links α} {x p : α} (hp : p ≠ x) : (h.addNext x p).prev (h.next x) = p := by
  simp [addNext, hp]

theorem addNext_prev_new {h : Links α} {x p : α} (hp : p ≠ x) (hn : h.next x ≠ p) :
    (h.addNext x p).prev p = x := by
  simp [addNext, hp, hn.symm]

theorem addNext_prev_of_ne {h : Links α} {x p a : α} (hpx : p ≠ x) (hp : a ≠ p) (hn : a ≠ h.next x) :
    (h.addNext x p).prev a = h.prev a := by
  simp [addNext, hpx, hp, hn]

theorem ring_addNext {h : Links α} {x p : α} {l : List α} (hr : h.Ring x l) (hp : p ∉ x :: l) :
    (h.addNext x p).Ring x (p :: l) := by
  have hpx : p ≠ x := fun e => hp (by simp [e])
  have hpn : h.next x ≠ p := fun e => hp (e ▸ hr.next_mem List.mem_cons_self)
  have hd := hr.nodup
  refine ⟨?_, ?_, ?_⟩
  · have hl : l.map (h.addNext x p).next = l.map h.next := by
      refine List.map_congr_left fun a ha => addNext_next_of_ne ?_ ?_
      · rintro rfl; exact (List.nodup_cons.1 hd).1 ha
      · rintro rfl; exact hp (List.mem_cons_of_mem _ ha)
    have hn := hr.next
    simp only [List.map_cons, addNext_next_self, addNext_next_new hpx, hl] at hn ⊢
    rw [hn]; rfl
  · -- going back: `p` comes before the old first element, which is `x` in an empty ring
    have hprev := hr.prev
    have hnext := hr.next
    rw [List.cons_append, List.map_cons, addNext_prev_new hpx hpn]
    congr 1
    cases l with
    | nil =>
      have hx : h.next x = x := by simpa using hnext
      have : (h.addNext x p).prev (h.next x) = p := addNext_prev_first hpx
      rw [hx] at this
      simp [this]
    | cons a t =>
      simp only [List.map_cons, List.cons_append, List.cons.injEq] at hnext hprev ⊢
      have ha : (h.addNext x p).prev a = p := hnext.1 ▸ addNext_prev_first hpx
      refine ⟨ha, ?_⟩
      rw [← hprev.2]
      refine List.map_congr_left fun b hb => addNext_prev_of_ne hpx ?_ ?_
      · rintro rfl; exact hp (by simp only [List.mem_append, List.mem_cons] at hb ⊢; tauto)
      · rw [hnext.1]; rintro rfl
        simp only [List.nodup_cons, List.mem_cons, not_or] at hd
        rcases List.mem_append.1 hb with hb | hb
        · exact hd.2.1 hb
        · exact hd.1.1 (List.mem_singleton.1 hb).symm
  · rw [List.nodup_cons] at hd ⊢
    simp only [List.mem_cons, not_or, List.nodup_cons] at hp ⊢
    exact ⟨⟨hpx.symm, hd.1⟩, hp.2, hd.2⟩

theorem ring_addNext_of_disjoint {h : Links α} {x y p : α} {l m : List α} (hx : h.Ring x l) (hy : h.Ring y m)
    (hpx : p ∉ x :: l) (hp : p ∉ y :: m) (hd : ∀ a ∈ x :: l, a ∉ y :: m) : (h.addNext x p).Ring y m := by
  have hpx' : p ≠ x := fun e => hpx (by simp [e])
  have hne : ∀ a ∈ y :: m, a ≠ p ∧ ∀ b ∈ x :: l, a ≠ b :=
    fun a ha => ⟨fun e => hp (e ▸ ha), fun b hb e => hd b hb (e ▸ ha)⟩
  refine ring_congr hy ?_ ?_ <;> intro a ha <;> obtain ⟨h1, h2⟩ := hne a ha
  · exact addNext_next_of_ne (h2 x List.mem_cons_self) h1
  · exact addNext_prev_of_ne hpx' h1 (h2 _ (hx.next_mem List.mem_cons_self))

/-! ## Unlinking -/

omit [DecidableEq α] in
/-- A ring cut at one of its members: the neighbours `u` and `v` of `p`. -/
theorem Ring.split {h : Links α} {x p : α} {a b : List α} (hr : h.Ring x (a ++ p :: b)) :
    ∃ c u v d, x :: a = c ++ [u] ∧ b ++ [x] = v :: d ∧ h.next p = v ∧ h.prev p = u ∧ h.next u = p ∧ h.prev v = p ∧
      c.map h.next = a ∧ b.map h.next = d ∧ a.map h.prev = c ∧ d.map h.prev = b := by
  obtain ⟨c, u, hcu⟩ : ∃ c u, x :: a = c ++ [u] :=
    ⟨(x :: a).dropLast, (x :: a).getLast (by simp), (List.dropLast_append_getLast (by simp)).symm⟩
  obtain ⟨v, d, hvd⟩ : ∃ v d, b ++ [x] = v :: d := List.exists_cons_of_ne_nil (by simp)
  have hn : (c ++ [u] ++ p :: b).map h.next = a ++ p :: v :: d := by
    have := hr.next
    rw [← List.cons_append, hcu] at this
    rw [this, List.append_assoc, List.cons_append, hvd]
  have hp : (a ++ p :: v :: d).map h.prev = c ++ u :: p :: b := by
    have := hr.prev
    rw [List.append_assoc, List.cons_append, hvd, ← List.cons_append, hcu] at this
    rw [this]; simp
  -- the two sides of `p` have the lengths of `a` and `b`, so the equations split there
  have hlen : c.length = a.length := by
    have := congrArg List.length hcu
    simp at this; omega
  simp only [List.map_append, List.map_cons, List.append_assoc, List.cons_append, List.nil_append]
    at hn hp
  obtain ⟨h1, h2⟩ := List.append_inj hn (by simp [hlen])
  obtain ⟨h3, h4⟩ := List.append_inj hp (by simp [hlen])
  simp only [List.cons.injEq] at h2 h4
  exact ⟨c, u, v, d, hcu, hvd, h2.2.1, h4.1, h2.1, h4.2.1, h1, h2.2.2, h3, h4.2.2⟩

theorem ring_unlink {h : Links α} {x p : α} {a b : List α} (hr : h.Ring x (a ++ p :: b)) :
    (h.unlink p).Ring x (a ++ b) := by
  obtain ⟨c, u, v, d, hcu, hvd, h1, h2, -, -, h5, h6, h7, h8⟩ := hr.split
  have hd := hr.nodup
  rw [← List.cons_append, hcu, List.append_assoc, List.singleton_append] at hd
  have hd' := (List.perm_append_singleton x (a ++ p :: b)).nodup_iff.2 hr.nodup
  rw [List.append_assoc, List.cons_append, hvd] at hd'
  simp only [List.nodup_append, List.nodup_cons, List.mem_cons, not_or] at hd hd'
  -- the neighbours occur once each, so the updates change nothing else
  have hu : u ∉ c ∧ u ∉ b := ⟨fun e => hd.2.2 u e u (.inl rfl) rfl, hd.2.1.1.2⟩
  have hv : v ∉ a ∧ v ∉ d := ⟨fun e => hd'.2.2 v e v (.inr (.inl rfl)) rfl, hd'.2.1.2.1⟩
  have hnext : (h.unlink p).next = Function.update h.next u v := by simp [unlink, h1, h2]
  have hup : p ≠ u := Ne.symm hd.2.1.1.1
  have hprev : (h.unlink p).prev = Function.update h.prev v u := by
    simp [unlink, h1, h2, hup]
  have hout : ∀ (f : α → α) (y z : α) (l : List α), y ∉ l → l.map (Function.update f y z) = l.map f :=
    fun f y z l hy => List.map_congr_left fun w hw => Function.update_of_ne (by rintro rfl; exact hy hw) _ _
  refine ⟨?_, ?_, ?_⟩
  · rw [← List.cons_append, hcu, hnext, List.append_assoc, List.append_assoc, hvd]
    simp only [List.map_append, List.map_cons, Function.update_self, hout _ _ _ _ hu.1, hout _ _ _ _ hu.2, h5, h6,
      List.singleton_append]
  · rw [List.append_assoc, hvd, hprev, ← List.cons_append, hcu]
    simp only [List.map_append, List.map_cons, Function.update_self, hout _ _ _ _ hv.1, hout _ _ _ _ hv.2, h7, h8,
      List.append_assoc, List.singleton_append]
  · have := hr.nodup
    exact this.sublist (by simp)

theorem ring_unlink_of_disjoint {h : Links α} {x y p : α} {l m : List α} (hx : h.Ring x l) (hy : h.Ring y m)
    (hp : p ∈ x :: l) (hd : ∀ a ∈ x :: l, a ∉ y :: m) : (h.unlink p).Ring y m := by
  refine ring_congr hy ?_ ?_ <;> intro a ha
  · have : a ≠ h.prev p := by rintro rfl; exact hd _ (hx.prev_mem hp) ha
    simp [unlink, this]
  · have hu : a ≠ h.next p := by rintro rfl; exact hd _ (hx.next_mem hp) ha
    by_cases hpp : p = h.prev p
    · simp [unlink, ← hpp, hu]
    · simp [unlink, Function.update_of_ne hpp, hu]

omit [DecidableEq α] in
/-- The node before the sentinel is the last member. -/
theorem Ring.prev_sentinel {h : Links α} {x p : α} {l : List α} (hr : h.Ring x (l ++ [p])) : h.prev x = p := by
  have := hr.prev
  rw [List.map_append, ← List.cons_append] at this
  simpa using (List.append_inj' this rfl).2

end Links

end TinyOS.Lib
