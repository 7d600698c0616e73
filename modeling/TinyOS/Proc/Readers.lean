/-
The units of `serial_sem`. Each completed line gives as many of them as it has characters, and each
unit is in the counter or belongs to a process in `getchar`: so `pop_front` never finds less than the
`sem_p` before it was promised.
-/
import TinyOS.Proc.Line

namespace TinyOS.Kernel

open TinyOS.Lib TinyOS.Klib

variable {k k' : Kernel} {dom : Sema → Prop} {wait : Sema → List Nat} {p q b : Nat} {x : Sema}
  {s : Sys Sema} {e : Event} {out : Out} {ch : UInt8} {r : Int}

/-! ## The processes in `getchar` -/

/-- In `getchar`: blocked in its `sem_p`, or behind it. -/
def isRead : Cont → Bool
  | .read _ _ => true
  | _ => false

def reading (k : Kernel) (p : Nat) : Bool := isRead (k.cont p)

def readers (k : Kernel) : Finset Nat := (Finset.range procNum).filter fun p => k.reading p

/-- Those whose `sem_p` has passed, and whose `pop_front` has not run. -/
def passed (k : Kernel) : Finset Nat := k.readers.filter fun p => k.sys.status p ≠ .blocked

theorem mem_readers : p ∈ k.readers ↔ p < procNum ∧ k.reading p = true := by
  unfold readers
  rw [Finset.mem_filter, Finset.mem_range]

theorem readers_congr (h : ∀ p, k'.reading p = k.reading p) : k'.readers = k.readers := by
  unfold readers
  simp only [h]

theorem reading_setCont {c : Cont} : (k.setCont p c).reading q = if q = p then isRead c else k.reading q := by
  unfold reading Kernel.setCont
  simp only [Function.update_apply, apply_ite isRead]

/-- Blocked readers are not among those that have passed. -/
theorem Waits.passed_le {G : Sema → Prop} {T U : Finset Nat} (h : Waits G dom wait k) (hT : T ⊆ k.passed) (hU : T ⊆ U)
    (hw : ∀ q ∈ wait .serial, q ∈ U) : T.card + (wait .serial).length ≤ U.card := by
  have hd : Disjoint T (wait .serial).toFinset := by
    refine Finset.disjoint_left.2 fun q hq hq' => ?_
    have h1 := (Finset.mem_filter.1 (hT hq)).2
    exact h1 (h.blocked h.serial (List.mem_toFinset.1 hq'))
  have hcard : (wait .serial).toFinset.card = (wait .serial).length :=
    List.toFinset_card_of_nodup (h.ok.nodup _ h.serial)
  rw [← hcard, ← Finset.card_union_of_disjoint hd]
  refine Finset.card_le_card (Finset.union_subset hU fun q hq => ?_)
  exact hw q (List.mem_toFinset.1 hq)

/-! ## The balance -/

/-- The characters that may be read are the units in the counter of `serial_sem` and the `r` of the
processes; at most `b` bytes have come. -/
structure Stock (r : Int) (b : Nat) (k : Kernel) : Prop where
  waits : ∃ dom wait, Waits (· = .serial) dom wait k ∧ ∀ q ∈ wait .serial, k.reading q = true
  live : ∀ q, k.reading q = true → Live k.sys q
  sum : k.sys.value .serial + r = k.clapboard - k.head
  head : 0 ≤ k.head
  le : k.head ≤ k.clapboard
  clapboard : k.clapboard ≤ k.tail
  tail : k.tail ≤ b

theorem Stock.mono (h : Stock r b k) {b' : Nat} (hb : b ≤ b') : Stock r b' k :=
  ⟨h.waits, h.live, h.sum, h.head, h.le, h.clapboard, by have := h.tail; omega⟩

/-- `pop_front`, where something is left for it. -/
theorem Stock.popFront (h : Stock (r + 1) b k) (hlt : k.head < k.clapboard) (hb : b < 2 ^ 31) :
    Stock r b k.popFront.2 := by
  have h1 := h.head
  have h2 := h.clapboard
  have h3 := h.tail
  have h4 := h.sum
  have hi : int32 (k.head + 1) = k.head + 1 := int32_of_range (by omega) (by omega)
  obtain ⟨dom, wait, hw, hr⟩ := h.waits
  unfold Kernel.popFront
  rw [if_pos hlt]
  refine ⟨⟨dom, wait, hw.congr rfl rfl rfl, hr⟩, h.live, ?_, ?_, ?_, h2, h3⟩
  · show _ = k.clapboard - int32 (k.head + 1)
    rw [hi]
    show k.sys.value .serial + r = _
    omega
  · show 0 ≤ int32 (k.head + 1)
    omega
  · show int32 (k.head + 1) ≤ k.clapboard
    omega

/-- The end of a call of the current process, which then reads nothing. -/
theorem Stock.back {y : Reply} (h : Stock r b k) (hr : Runs k) : Stock r b (k.back y) := by
  obtain ⟨dom, wait, hw, hread⟩ := h.waits
  have hback : ∀ q, (k.back y).reading q = (k.setCont k.sys.curr .user).reading q := fun q => rfl
  refine ⟨⟨dom, wait, hw.back, fun q hq => ?_⟩, fun q hq => h.live q ?_, h.sum, h.head, h.le, h.clapboard, h.tail⟩
  · have hne : q ≠ k.sys.curr := fun hc => by
      have := hw.blocked hw.serial hq
      rw [hc, hr.status] at this
      cases this
    rw [hback, reading_setCont, if_neg hne]
    exact hread q hq
  · rw [hback, reading_setCont] at hq
    split at hq
    · cases hq
    · exact hq

theorem readers_back {y : Reply} : (k.back y).readers = k.readers.erase k.sys.curr := by
  ext q
  have hback : (k.back y).reading q = (k.setCont k.sys.curr .user).reading q := rfl
  rw [Finset.mem_erase, mem_readers, mem_readers, hback, reading_setCont]
  by_cases hq : q = k.sys.curr
  · rw [if_pos hq]
    exact ⟨fun hc => absurd hc.2 (by decide), fun hc => absurd hq hc.1⟩
  · rw [if_neg hq]
    exact ⟨fun hc => ⟨hq, hc⟩, fun hc => hc.2⟩

theorem readers_read {n : Nat} {more : List UInt8} (hp : p < procNum) :
    (k.setCont p (.read n more)).readers = insert p k.readers := by
  ext q
  rw [Finset.mem_insert, mem_readers, mem_readers, reading_setCont]
  by_cases hq : q = p
  · rw [if_pos hq]
    exact ⟨fun _ => Or.inl hq, fun _ => ⟨hq ▸ hp, rfl⟩⟩
  · rw [if_neg hq]
    exact ⟨Or.inr, fun hc => hc.resolve_left hq⟩

/-! ## `getchar` -/

/-- `sem_p` takes a unit for the process, or the process owes the counter one and is blocked. -/
theorem Stock.semP (h : Stock r b k) (hr : Runs k) (hc : k.sys.curr ≠ 0) (hs : k.sys.semP .serial = some s) :
    (s.status = k.sys.status ∧ s.curr = k.sys.curr ∧ Stock (r + 1) b { k with sys := s } ∧
    r + 1 ≤ k.clapboard - k.head) ∨
      (s.status k.sys.curr = .blocked ∧ ∀ n more,
      Stock (r + 1) b ({ k with sys := s }.setCont k.sys.curr (.read n more))) := by
  obtain ⟨dom, wait, hw, hread⟩ := h.waits
  have hsum := h.sum
  have hpos : 1 ≤ k.sys.curr ∧ k.sys.curr < procNum := ⟨Nat.pos_of_ne_zero hc, hr.curr⟩
  -- the counter is far from its lower end
  have hlen := hw.ok.length_le hw.serial
  obtain ⟨ht, hlt⟩ := hw.tight _ hw.serial rfl
  unfold Sys.Tight at ht
  have hval : int32 (k.sys.value .serial - 1) = k.sys.value .serial - 1 := int32_of_range (by omega) (by omega)
  have hvalue : s.value .serial = k.sys.value .serial - 1 := by rw [Sys.semP_value hs, Function.update_self, hval]
  obtain ⟨hcurr, ⟨hst, hw'⟩ | ⟨hst, hw'⟩⟩ := hw.semP hw.serial hpos hr.status trivial hs
  · left
    have hv : 0 ≤ k.sys.value .serial - 1 := by
      rcases Sys.semP_cases hs with ⟨hv, -⟩ | ⟨-, l, -, hs'⟩
      · rw [hval] at hv
        exact hv
      · have hblk : s.status k.sys.curr = .blocked := by
          rw [hs']
          exact Function.update_self ..
        rw [hst, hr.status] at hblk
        cases hblk
    refine ⟨hst, hcurr, ⟨⟨dom, wait, hw', hread⟩, fun q hq => ?_, ?_, h.head, h.le, h.clapboard, h.tail⟩, by omega⟩
    · unfold Live
      show s.status q ≠ _ ∧ s.status q ≠ _
      rw [hst]
      exact h.live q hq
    · show s.value .serial + (r + 1) = k.clapboard - k.head
      omega
  · right
    refine ⟨by rw [hst, Function.update_self], fun n more => ?_⟩
    refine ⟨⟨dom, _, hw'.setCont, fun q hq => ?_⟩, fun q hq => ?_, ?_, h.head, h.le, h.clapboard, h.tail⟩
    · rw [Function.update_self, List.mem_append, List.mem_singleton] at hq
      rw [reading_setCont]
      split
      · rfl
      · next hne => exact hread q (hq.resolve_right hne)
    · unfold Live
      show s.status q ≠ _ ∧ s.status q ≠ _
      rw [hst]
      by_cases hqc : q = k.sys.curr
      · rw [hqc, Function.update_self]
        decide
      · rw [Function.update_of_ne hqc]
        rw [reading_setCont, if_neg hqc] at hq
        exact h.live q hq
    · show s.value .serial + (r + 1) = k.clapboard - k.head
      omega

/-- What `getchar` may rely on when it enters `pop_front`: there are characters for it and for every
other call that has passed its `sem_p`. -/
def Served (k : Kernel) : Prop := ((k.passed.erase k.sys.curr).card : Int) + 1 ≤ k.clapboard - k.head

theorem passed_erase_le : (k.passed.erase p).card ≤ (k.readers.erase p).card :=
  Finset.card_le_card (Finset.erase_subset_erase p (Finset.filter_subset _ _))

/-- One `getchar` behind its `sem_p`, by a process that is not counted in `r`. -/
theorem Stock.getchar (h : Stock (k.readers.erase k.sys.curr).card b k) (hr : Runs k) (hc : k.sys.curr ≠ 0)
    (hb : b < 2 ^ 31) (hs : k.sys.semP .serial = some s) (hst : s.status k.sys.curr ≠ .blocked) :
    Served { k with sys := s } ∧ ∀ ch k₁, { k with sys := s }.getcharRest = some (ch, k₁) →
      Stock (k₁.readers.erase k₁.sys.curr).card b k₁ ∧ Runs k₁ ∧ k₁.sys.curr = k.sys.curr := by
  rcases h.semP hr hc hs with ⟨h1, h2, h3, h4⟩ | ⟨h1, -⟩
  · have hle : ((passed { k with sys := s }).erase s.curr).card ≤ (k.readers.erase k.sys.curr).card := by
      have := passed_erase_le (k := { k with sys := s }) (p := s.curr)
      rw [h2] at this ⊢
      exact this
    refine ⟨?_, fun ch k₁ hg => ?_⟩
    · show ((((passed { k with sys := s }).erase s.curr).card : Nat) : Int) + 1 ≤ k.clapboard - k.head
      omega
    · obtain ⟨hpop, -⟩ := getcharRest_some hg
      obtain ⟨e1, -, -, e4⟩ := getcharRest_eq hg
      have h5 := h3.popFront (show k.head < k.clapboard by omega) hb
      rw [hpop] at h5
      have hcurr : k₁.sys.curr = k.sys.curr := by rw [e1]; exact h2
      have hreaders : k₁.readers = k.readers := readers_congr fun p => by unfold reading; rw [e4]
      rw [hreaders, hcurr]
      refine ⟨h5, hr.congr hcurr ?_ ?_, rfl⟩
      · rw [e1]
        exact h1
      · rw [e4]
        exact hr.cont
  · exact absurd h1 hst

/-- The loop of `serial_read`, from a state in which the current process has no unit of its own. -/
theorem serialRead_stock : ∀ {n : Nat} {more : List UInt8} {k : Kernel},
    Stock (k.readers.erase k.sys.curr).card b k → Runs k →
    k.sys.curr ≠ 0 → b < 2 ^ 31 → serialRead n more k = some (k', out) → Stock k'.readers.card b k'
  | 0, more, k, h, hr, hc, hb, he => by
    cases he
    rw [readers_back]
    exact h.back hr
  | n + 1, more, k, h, hr, hc, hb, he => by
    unfold serialRead at he
    obtain ⟨s, hs, he⟩ := Option.bind_eq_some_iff.1 he
    split at he
    · next hblk =>
      cases he
      rcases h.semP hr hc hs with ⟨h1, -⟩ | ⟨-, h2⟩
      · rw [h1, hr.status] at hblk
        cases hblk
      · have hreaders : (({ k with sys := s } : Kernel).setCont k.sys.curr (.read n more)).readers.card =
            (k.readers.erase k.sys.curr).card + 1 := by
          rw [readers_read hr.curr]
          show (insert k.sys.curr k.readers).card = _
          rw [← Finset.card_erase_add_one (Finset.mem_insert_self _ _), Finset.erase_insert_eq_erase]
        rw [hreaders]
        push_cast
        exact h2 n more
    · next hblk =>
      obtain ⟨⟨ch, k₁⟩, hg, he⟩ := Option.bind_eq_some_iff.1 he
      obtain ⟨-, h2⟩ := h.getchar hr hc hb hs hblk
      obtain ⟨h3, h4, h5⟩ := h2 ch k₁ hg
      by_cases hch : ch = 10
      · simp only [if_pos hch, Option.some.injEq, Prod.mk.injEq] at he
        obtain ⟨rfl, rfl⟩ := he
        rw [readers_back]
        exact h3.back h4
      · simp only [if_neg hch] at he
        exact serialRead_stock h3 h4 (by rw [h5]; exact hc) hb he

theorem popsRead_served : ∀ {n : Nat} {k k₁ : Kernel}, Stock (k.readers.erase k.sys.curr).card b k → Runs k →
    k.sys.curr ≠ 0 → b < 2 ^ 31 → k₁ ∈ popsRead n k → Served k₁
  | 0, k, k₁, _, _, _, _, hm => absurd hm List.not_mem_nil
  | n + 1, k, k₁, h, hr, hc, hb, hm => by
    unfold popsRead at hm
    cases hs : k.sys.semP .serial with
    | none =>
      rw [hs, Option.elim_none] at hm
      exact absurd hm List.not_mem_nil
    | some s =>
      rw [hs, Option.elim_some] at hm
      split at hm
      · exact absurd hm List.not_mem_nil
      · next hblk =>
        obtain ⟨h1, h2⟩ := h.getchar hr hc hb hs hblk
        unfold popsFrom at hm
        rcases List.mem_cons.1 hm with rfl | hm
        · exact h1
        · cases hg : Kernel.getcharRest { k with sys := s } with
          | none =>
            rw [hg, Option.elim_none] at hm
            exact absurd hm List.not_mem_nil
          | some r =>
            obtain ⟨ch, k₂⟩ := r
            obtain ⟨h3, h4, h5⟩ := h2 ch k₂ hg
            rw [hg, Option.elim_some] at hm
            simp only at hm
            split at hm
            · exact absurd hm List.not_mem_nil
            · exact popsRead_served h3 h4 (by rw [h5]; exact hc) hb hm

theorem getcharRest_clapboard {k₁ : Kernel} (h : k.getcharRest = some (ch, k₁)) : k₁.clapboard = k.clapboard := by
  obtain ⟨hpop, -⟩ := getcharRest_some h
  have h1 : k.popFront.2.clapboard = k.clapboard := by
    unfold Kernel.popFront
    split
    · rfl
    · rfl
  rw [hpop] at h1
  exact h1

/-- Reading completes no line. -/
theorem serialRead_clapboard : ∀ {n : Nat} {more : List UInt8} {k : Kernel}, serialRead n more k = some (k', out) →
    k'.clapboard = k.clapboard
  | 0, more, k, he => by
    cases he
    rfl
  | n + 1, more, k, he => by
    unfold serialRead at he
    obtain ⟨s, -, he⟩ := Option.bind_eq_some_iff.1 he
    split at he
    · cases he
      rfl
    · obtain ⟨⟨ch, k₁⟩, hg, he⟩ := Option.bind_eq_some_iff.1 he
      have h1 := getcharRest_clapboard hg
      by_cases hch : ch = 10
      · simp only [if_pos hch, Option.some.injEq, Prod.mk.injEq] at he
        obtain ⟨rfl, rfl⟩ := he
        exact h1
      · simp only [if_neg hch] at he
        rw [serialRead_clapboard he, h1]

/-! ## Completing a line -/

/-- `sem_v` on `serial_sem`, with a count of its calls. -/
def countV (t : Sys Sema × Nat) : Option (Sys Sema × Nat) := (t.1.semV .serial).map fun s => (s, t.2 + 1)

/-- `push_back` with this `sem_v`. -/
def pushBackV (k : Kernel) (v : Nat) (ch : UInt8) : Option (Kernel × Nat) :=
  let k := { k with buffer := Function.update k.buffer (k.tail.tmod bufferSize) ch, tail := int32 (k.tail + 1) }
  if ch = 10 then do
    let (sys, v) ← (List.range (int32 (k.tail - k.clapboard)).toNat).foldlM (fun t _ => countV t) (k.sys, v)
    return ({ k with sys := sys, clapboard := k.tail }, v)
  else some (k, v)

/-- `serial_handle` with this `push_back`. -/
def serialHandleV : List UInt8 → Kernel → Nat → Option (Kernel × Nat)
  | [], k, v => some (k, v)
  | ch :: rest, k, v =>
    if ch = 0 then serialHandleV rest k v
    else if ch = 0x1b then some (k, v)
    else if ch = 8 ∨ ch = 127 then serialHandleV rest k.popBack.2 v
    else
      let ch := if ch = 13 then 10 else ch
      if ch = 10 ∨ (32 ≤ ch ∧ ch < 127) then do
        let (k, v) ← k.pushBackV v ch
        serialHandleV rest k v
      else serialHandleV rest k v

/-- How often the kernel calls `sem_v` on `serial_sem` while it handles an event. -/
def vCalls (k : Kernel) : Event → Nat
  | .serial bytes => (serialHandleV bytes k 0).elim 0 Prod.snd
  | _ => 0

theorem countV_loop {l : List Nat} : ∀ {s : Sys Sema} {v : Nat}, l.foldlM (fun t _ => countV t) (s, v) =
    (l.foldlM (fun (s : Sys Sema) _ => s.semV .serial) s).map fun s => (s, v + l.length) := by
  induction l with
  | nil => exact fun {s v} => rfl
  | cons i l ih =>
    intro s v
    rw [List.foldlM_cons, List.foldlM_cons, List.length_cons]
    cases hs : s.semV .serial with
    | none =>
      have hnone : countV (s, v) = none := by simp [countV, hs]
      rw [hnone]
      rfl
    | some s₁ =>
      have hsome : countV (s, v) = some (s₁, v + 1) := by simp [countV, hs]
      rw [hsome, Nat.add_comm l.length, ← Nat.add_assoc]
      exact ih

theorem pushBackV_fst {v : Nat} : (k.pushBackV v ch).map Prod.fst = k.pushBack ch := by
  unfold pushBackV Kernel.pushBack
  simp only [countV_loop]
  split
  · simp only [Option.bind_eq_bind, Option.bind_map, Option.map_bind, Option.pure_def, Function.comp_def,
      Option.map_some]
  · rfl

/-- The count changes nothing in what `serial_handle` does. -/
theorem serialHandleV_fst : ∀ {l : List UInt8} {k : Kernel} {v : Nat},
    (serialHandleV l k v).map Prod.fst = serialHandle l k
  | [], k, v => rfl
  | ch :: rest, k, v => by
    unfold serialHandleV serialHandle
    split
    · exact serialHandleV_fst
    · split
      · rfl
      · split
        · exact serialHandleV_fst
        · simp only [Option.bind_eq_bind]
          generalize (if ch = 13 then (10 : UInt8) else ch) = c
          split
          · rw [← pushBackV_fst (v := v), Option.bind_map, Option.map_bind]
            exact congrArg _ (funext fun t => serialHandleV_fst)
          · exact serialHandleV_fst

/-- `sem_v` on the serial line, `n` times, below the upper end of the counter. -/
theorem serialVs_stock {l : List Nat} : ∀ {k : Kernel} {wait : Sema → List Nat} {s : Sys Sema},
    Waits (· = .serial) dom wait k → k.sys.value .serial + l.length < 2 ^ 31 →
    l.foldlM (fun s _ => s.semV .serial) k.sys = some s →
    s.value .serial = k.sys.value .serial + l.length ∧ Woke k.sys s ∧
      ∃ wait', Waits (· = .serial) dom wait' { k with sys := s } ∧ Fewer wait' wait := by
  induction l with
  | nil =>
    intro k wait s h _ hs
    cases hs
    exact ⟨(Int.add_zero _).symm, ⟨rfl, fun _ => Or.inl rfl⟩, wait, h, .refl wait⟩
  | cons i l ih =>
    intro k wait s h hlt hs
    rw [List.length_cons] at hlt ⊢
    push_cast at hlt ⊢
    rw [List.foldlM_cons] at hs
    obtain ⟨s₁, h1, hs⟩ := Option.bind_eq_some_iff.1 hs
    have hlen := h.ok.length_le h.serial
    obtain ⟨ht, -⟩ := h.tight _ h.serial rfl
    unfold Sys.Tight at ht
    have hvalue : s₁.value .serial = k.sys.value .serial + 1 := by
      rw [Sys.semV_value h1, Function.update_self, int32_of_range (by omega) (by omega)]
    obtain ⟨h2, wait₁, h3, h4⟩ := h.woke h.serial (fun _ => by omega) h1
    obtain ⟨h5, h6, wait', h7, h8⟩ := ih (k := { k with sys := s₁ }) h3 (by show s₁.value .serial + _ < _; omega) hs
    refine ⟨?_, h2.trans h6, wait', h7, fun x q hq => h4 x q (h8 x q hq)⟩
    rw [h5]
    show s₁.value .serial + _ = _
    omega

/-- One character more, and at a newline a unit for every character of the line. -/
theorem Stock.pushBack {v v' : Nat} (h : Stock r b k) (hb : b + 1 < 2 ^ 31) (hr0 : 0 ≤ r)
    (he : k.pushBackV v ch = some (k', v')) :
    Stock r (b + 1) k' ∧ k'.clapboard + v = k.clapboard + v' ∧ k'.readers = k.readers := by
  have h1 := h.head
  have h2 := h.le
  have h3 := h.clapboard
  have h4 := h.tail
  have hsum := h.sum
  have hi : int32 (k.tail + 1) = k.tail + 1 := int32_of_range (by omega) (by omega)
  obtain ⟨dom, wait, hw, hread⟩ := h.waits
  unfold pushBackV at he
  simp only at he
  split at he
  · next hch =>
    obtain ⟨⟨s, w⟩, hs, hk⟩ := Option.bind_eq_some_iff.1 he
    rw [countV_loop] at hs
    obtain ⟨s₁, hs₁, hsw⟩ := Option.map_eq_some_iff.1 hs
    cases hsw
    have hn : (int32 (int32 (k.tail + 1) - k.clapboard)).toNat = (k.tail + 1 - k.clapboard).toNat := by
      rw [hi, int32_of_range (by omega) (by omega)]
    rw [hn] at hs₁ hk
    have hw₀ : Waits (· = .serial) dom wait (Kernel.mk k.sys k.pcb k.nextPid k.ref k.tick
        (Function.update k.buffer (k.tail.tmod bufferSize) ch) k.head
            (int32 (k.tail + 1)) k.clapboard k.cont k.reply) :=
      hw.congr rfl rfl rfl
    obtain ⟨h5, h6, wait', h7, h8⟩ :=
      serialVs_stock hw₀ (by rw [List.length_range]; show k.sys.value .serial + _ < _; omega) hs₁
    rw [List.length_range] at h5
    have h5' : s.value .serial = k.sys.value .serial + ((k.tail + 1 - k.clapboard).toNat : Nat) := h5
    cases hk
    refine ⟨⟨⟨dom, wait', h7.congr rfl rfl rfl, fun q hq => hread q (h8 _ q hq)⟩, fun q hq =>
      h6.live (h.live q hq), ?_, h1, ?_, ?_, ?_⟩, ?_, rfl⟩
    · show s.value .serial + r = int32 (k.tail + 1) - k.head
      omega
    · show k.head ≤ int32 (k.tail + 1)
      omega
    · show int32 (k.tail + 1) ≤ int32 (k.tail + 1)
      omega
    · show int32 (k.tail + 1) ≤ ((b + 1 : Nat) : Int)
      omega
    · show int32 (k.tail + 1) + v = _
      rw [List.length_range]
      push_cast
      omega
  · next hch =>
    cases he
    refine ⟨⟨⟨dom, wait, hw.congr rfl rfl rfl, hread⟩, h.live, hsum, h1, h2, ?_, ?_⟩, rfl, rfl⟩
    · show k.clapboard ≤ int32 (k.tail + 1)
      omega
    · show int32 (k.tail + 1) ≤ ((b + 1 : Nat) : Int)
      omega

theorem Stock.popBack (h : Stock r b k) (hb : b < 2 ^ 31) :
    Stock r b k.popBack.2 ∧ k.popBack.2.clapboard = k.clapboard ∧ k.popBack.2.readers = k.readers := by
  have h1 := h.head
  have h2 := h.le
  have h4 := h.tail
  obtain ⟨dom, wait, hw, hread⟩ := h.waits
  unfold Kernel.popBack
  split
  · next hlt =>
    have hi : int32 (k.tail - 1) = k.tail - 1 := int32_of_range (by omega) (by omega)
    refine ⟨⟨⟨dom, wait, hw.congr rfl rfl rfl, hread⟩, h.live, h.sum, h1, h2, ?_, ?_⟩, rfl, rfl⟩
    · show k.clapboard ≤ int32 (k.tail - 1)
      omega
    · show int32 (k.tail - 1) ≤ b
      omega
  · exact ⟨h, rfl, rfl⟩

/-- An interrupt: `clapboard` moves by the number of the calls of `sem_v`. -/
theorem serialHandle_stock : ∀ {l : List UInt8} {k : Kernel} {b v v' : Nat}, Stock r b k → 0 ≤ r →
    b + l.length < 2 ^ 31 → serialHandleV l k v = some (k', v') →
    Stock r (b + l.length) k' ∧ k'.clapboard + v = k.clapboard + v' ∧ k'.readers = k.readers
  | [], k, b, v, v', h, _, _, he => by
    cases he
    exact ⟨h, rfl, rfl⟩
  | ch :: rest, k, b, v, v', h, hr0, hb, he => by
    rw [List.length_cons] at hb ⊢
    have hskip : serialHandleV rest k v = some (k', v') → Stock r (b + (rest.length + 1)) k' ∧
        k'.clapboard + v = k.clapboard + v' ∧ k'.readers = k.readers := fun he => by
      obtain ⟨h1, h2, h3⟩ := serialHandle_stock (l := rest) h hr0 (by omega) he
      exact ⟨h1.mono (by omega), h2, h3⟩
    have hpush : ∀ {c : UInt8}, (k.pushBackV v c).bind (fun t => serialHandleV rest t.1 t.2) = some (k', v') →
        Stock r (b + (rest.length + 1)) k' ∧ k'.clapboard + v = k.clapboard + v' ∧ k'.readers = k.readers := by
      intro c hbind
      obtain ⟨⟨k₁, v₁⟩, h1, h2⟩ := Option.bind_eq_some_iff.1 hbind
      obtain ⟨h3, h4, h5⟩ := h.pushBack (by omega) hr0 h1
      obtain ⟨h6, h7, h8⟩ := serialHandle_stock (l := rest) h3 hr0 (by omega) h2
      exact ⟨h6.mono (by omega), by omega, h8.trans h5⟩
    unfold serialHandleV at he
    split at he
    · exact hskip he
    · split at he
      · cases he
        exact ⟨h.mono (by omega), rfl, rfl⟩
      · split at he
        · obtain ⟨h3, h4, h5⟩ := h.popBack (by omega)
          obtain ⟨h6, h7, h8⟩ := serialHandle_stock (l := rest) h3 hr0 (by omega) he
          exact ⟨h6.mono (by omega), by rw [h7, h4], h8.trans h5⟩
        · simp only [Option.bind_eq_bind] at he
          generalize (if ch = 13 then (10 : UInt8) else ch) = c at he
          split at he
          · exact hpush he
          · exact hskip he

/-! ## The other events -/

/-- Neither the counter nor the readers are touched. -/
structure Aside (k k' : Kernel) : Prop where
  value : k'.sys.value .serial = k.sys.value .serial
  live : ∀ p, k.reading p = true → Live k'.sys p
  reading : ∀ p, k'.reading p = k.reading p

/-- A call of a process that reads nothing, while every reader is alive. -/
structure Idle (k : Kernel) : Prop where
  runs : Runs k
  live : ∀ p, k.reading p = true → Live k.sys p
  reading : k.reading k.sys.curr = false

theorem Idle.aside (h : Idle k) : Aside k k := ⟨rfl, h.live, fun _ => rfl⟩

theorem Aside.setCont {c : Cont} (h : Aside k k') (hp : k.reading p = false) (hc : isRead c = false) :
    Aside k (k'.setCont p c) := by
  refine ⟨h.value, h.live, fun q => ?_⟩
  rw [reading_setCont]
  split
  · next hq => rw [hc, hq, hp]
  · exact h.reading q

theorem Aside.back {y : Reply} (h : Aside k k') (hc : k'.sys.curr = k.sys.curr) (hp : k.reading k.sys.curr = false) :
    Aside k (k'.back y) := by
  have h' : Aside k (k'.setCont k'.sys.curr .user) := h.setCont (by rw [hc]; exact hp) rfl
  exact ⟨h'.value, h'.live, h'.reading⟩

theorem semP_aside (hx : x ≠ .serial) (hs : k.sys.semP x = some s) :
    s.value .serial = k.sys.value .serial ∧ ∀ p, Live k.sys p → Live s p := by
  refine ⟨by rw [Sys.semP_value hs, Function.update_of_ne (Ne.symm hx)], fun p hp => ?_⟩
  rcases Sys.semP_cases hs with ⟨-, rfl⟩ | ⟨-, l, -, rfl⟩
  · exact hp
  · unfold Live Sys.procBlock Sys.setStatus
    simp only [Function.update_apply]
    split
    · decide
    · exact hp

theorem semV_aside (hx : x ≠ .serial) (hs : k.sys.semV x = some s) :
    s.value .serial = k.sys.value .serial ∧ ∀ p, Live k.sys p → Live s p := by
  refine ⟨by rw [Sys.semV_value hs, Function.update_of_ne (Ne.symm hx)], fun p hp => ?_⟩
  rcases Sys.semV_cases hs with ⟨-, rfl⟩ | ⟨-, q, l, -, rfl⟩
  · exact hp
  · unfold Live Sys.procAddready Sys.setStatus
    simp only [Function.update_apply]
    split
    · decide
    · exact hp

theorem semInit_serial {v : Int} (hx : x ≠ .serial) : (s.semInit x v).value .serial = s.value .serial := by
  show Function.update s.value x v .serial = _
  rw [Function.update_of_ne (Ne.symm hx)]

theorem Idle.yield (h : Idle k) : Aside k k.sysYield := by
  refine ⟨rfl, fun p hp => ?_, fun _ => rfl⟩
  unfold Live Kernel.sysYield Sys.procYield Sys.setStatus
  simp only [Function.update_apply]
  split
  · decide
  · exact h.live p hp

theorem Idle.sleep {cur ticks : Nat} (h : Idle k) : Aside k (k.sysSleep cur ticks).1 := by
  unfold Kernel.sysSleep
  split
  · exact h.yield.setCont h.reading rfl
  · exact h.aside.setCont h.reading rfl

theorem Idle.fork (h : Idle k) : Aside k k.sysFork := by
  unfold Kernel.sysFork
  cases ha : k.procAlloc with
  | none => exact h.aside.back rfl h.reading
  | some ck =>
    obtain ⟨c, k₁⟩ := ck
    obtain ⟨-, -, hst, hk₁⟩ := procAlloc_eq ha
    have hc : k.reading c = false := Bool.eq_false_iff.2 fun hc => (h.live c hc).1 hst
    have hsys : (k₁.procCopycurr c).sys = k₁.sys := rfl
    have hcont : (k₁.procCopycurr c).cont = Function.update k.cont c .user := by rw [hk₁]; rfl
    refine Aside.back ⟨?_, fun p hp => ?_, fun p => ?_⟩ ?_ h.reading
    · show (k₁.procCopycurr c).sys.value .serial = _
      rw [hsys, hk₁]
      exact semInit_serial (by simp)
    · unfold Live Sys.procAddready Sys.setStatus
      simp only [Function.update_apply]
      split
      · decide
      · next hpc =>
        rw [hsys, hk₁]
        show Function.update k.sys.status c .uninit p ≠ _ ∧ Function.update k.sys.status c .uninit p ≠ _
        rw [Function.update_of_ne hpc]
        exact h.live p hp
    · have h' : Aside k (k.setCont c .user) := h.aside.setCont hc rfl
      have hread : isRead (Function.update k.cont c .user p) = isRead (k.cont p) := h'.reading p
      show isRead ((k₁.procCopycurr c).cont p) = isRead (k.cont p)
      rw [hcont]
      exact hread
    · show (k₁.procCopycurr c).sys.curr = _
      rw [hsys, hk₁]
      rfl

theorem Idle.exit {v : Int} (h : Idle k) (he : k.procMakezombie k.sys.curr v = some k') : Aside k k' := by
  have hz : ∀ p, k.reading p = true → Live (k.sys.setStatus k.sys.curr .zombie) p := fun p hp => by
    have hne : p ≠ k.sys.curr := fun hc => by
      rw [hc, h.reading] at hp
      cases hp
    unfold Live Sys.setStatus
    simp only [Function.update_of_ne hne]
    exact h.live p hp
  unfold Kernel.procMakezombie at he
  obtain ⟨s, hs, hk⟩ := Option.bind_eq_some_iff.1 he
  cases hk
  revert hs
  generalize ((k.setPcb k.sys.curr { k.pcb k.sys.curr with exitCode := v }).pcb k.sys.curr).parent = o
  intro hs
  cases o with
  | none =>
    cases hs
    exact ⟨rfl, hz, fun _ => rfl⟩
  | some q =>
    have hs' : (k.sys.setStatus k.sys.curr .zombie).semV (.zombie q) = some s := hs
    obtain ⟨h1, h2⟩ := semV_aside (k := { k with sys := k.sys.setStatus k.sys.curr .zombie }) (x := .zombie q)
      (by simp) hs'
    exact ⟨h1, fun p hp => h2 p (hz p hp), fun _ => rfl⟩

theorem Idle.waitRest (h : Idle k) (he : k.waitRest = some k') : Aside k k' := by
  unfold Kernel.waitRest at he
  obtain ⟨z, hz, hk⟩ := Option.bind_eq_some_iff.1 he
  obtain ⟨-, -, hst⟩ := procFindzombie_some hz
  cases hk
  have hfree : k.procFree z = { k with sys := k.sys.setStatus z .unused } := by
    unfold Kernel.procFree
    rw [if_neg (by rw [hst]; decide)]
  rw [hfree]
  refine Aside.back ⟨rfl, fun p hp => ?_, fun _ => rfl⟩ rfl h.reading
  have hne : p ≠ z := fun hc => by
    rw [hc] at hp
    exact (h.live z hp).2 hst
  show Function.update k.sys.status z .unused p ≠ _ ∧ Function.update k.sys.status z .unused p ≠ _
  rw [Function.update_of_ne hne]
  exact h.live p hp

theorem Idle.semP (h : Idle k) (hx : x ≠ .serial) (hs : k.sys.semP x = some s) : Aside k { k with sys := s } := by
  obtain ⟨h1, h2⟩ := semP_aside hx hs
  exact ⟨h1, fun p hp => h2 p (h.live p hp), fun _ => rfl⟩

theorem Idle.sysWait (h : Idle k) (he : k.sysWait = some (k', out)) : Aside k k' := by
  unfold Kernel.sysWait at he
  simp only at he
  split at he
  · cases he
    exact h.aside.back rfl h.reading
  · obtain ⟨s, hs, he⟩ := Option.bind_eq_some_iff.1 he
    have h₁ : Aside k { k with sys := s } := h.semP (by simp) hs
    have hcurr : s.curr = k.sys.curr := semP_curr hs
    split at he
    · cases he
      exact h₁.setCont h.reading rfl
    · next hb =>
      obtain ⟨k₁, hw, he⟩ := Option.bind_eq_some_iff.1 he
      cases he
      have hrun : Runs { k with sys := s } := by
        refine h.runs.congr hcurr ?_ h.runs.cont
        rcases Sys.semP_cases hs with ⟨-, rfl⟩ | ⟨-, l, -, rfl⟩
        · rfl
        · exact absurd (Function.update_self ..) hb
      have h₂ : Idle { k with sys := s } := by
        refine ⟨hrun, fun p hp => h₁.live p hp, ?_⟩
        show k.reading s.curr = false
        rw [hcurr]
        exact h.reading
      obtain ⟨h3, h4, h5⟩ := h₂.waitRest hw
      exact ⟨h3.trans h₁.value, h4, h5⟩

theorem Idle.semOpen {v : Int} (h : Idle k) : Aside k (k.sysSemOpen v) := by
  unfold Kernel.sysSemOpen
  simp only
  cases k.procAllocusem k.sys.curr with
  | none => exact h.aside.back rfl h.reading
  | some j =>
    cases hb : k.usemAlloc v with
    | none => exact h.aside.back rfl h.reading
    | some uk =>
      obtain ⟨u, -, rfl⟩ := Option.map_eq_some_iff.1 hb
      exact Aside.back ⟨semInit_serial (by simp), h.live, fun _ => rfl⟩ rfl h.reading

theorem Idle.usemP {id : Int} (h : Idle k) (he : k.sysSemP id = some (k', out)) : Aside k k' := by
  unfold Kernel.sysSemP at he
  simp only at he
  split at he
  · cases he
    exact h.aside.back rfl h.reading
  · obtain ⟨s, hs, he⟩ := Option.bind_eq_some_iff.1 he
    cases he
    have h₁ : Aside k { k with sys := s } := h.semP (by simp) hs
    exact h₁.back (semP_curr hs) h.reading

theorem Idle.usemV {id : Int} (h : Idle k) (he : k.sysSemV id = some k') : Aside k k' := by
  unfold Kernel.sysSemV at he
  split at he
  · cases he
    exact h.aside.back rfl h.reading
  · obtain ⟨s, hs, he⟩ := Option.bind_eq_some_iff.1 he
    cases he
    obtain ⟨h1, h2⟩ := semV_aside (by simp) hs
    have hcurr : s.curr = k.sys.curr := by
      rcases Sys.semV_cases hs with ⟨-, rfl⟩ | ⟨-, q, l, -, rfl⟩
      · rfl
      · rfl
    exact Aside.back ⟨h1, fun p hp => h2 p (h.live p hp), fun _ => rfl⟩ hcurr h.reading

theorem Idle.semClose {id : Int} (h : Idle k) : Aside k (k.sysSemClose id) := by
  unfold Kernel.sysSemClose
  simp only
  split
  · exact h.aside.back rfl h.reading
  · exact Aside.back ⟨rfl, h.live, fun _ => rfl⟩ rfl h.reading

theorem handle_aside (h : Idle k) (hn : ¬ OnLine k e) (he : k.handle e = some (k', out)) : Aside k k' := by
  unfold Kernel.handle at he
  cases e with
  | yield =>
    cases he
    exact h.yield
  | sleep ticks =>
    have : Aside k (k.sysSleep k.tick (uint32 ticks)).1 := h.sleep
    rw [Option.some.inj he] at this
    exact this
  | fork =>
    cases he
    exact h.fork
  | exec =>
    cases he
    exact h.aside
  | exit status =>
    obtain ⟨k₁, hk, he⟩ := Option.bind_eq_some_iff.1 he
    cases he
    exact h.exit hk
  | wait => exact h.sysWait he
  | semOpen value =>
    cases he
    exact h.semOpen
  | semP id => exact h.usemP he
  | semV id =>
    obtain ⟨k₁, hk, he⟩ := Option.bind_eq_some_iff.1 he
    cases he
    exact h.usemV hk
  | semClose id =>
    cases he
    exact h.semClose
  | read count => exact absurd trivial hn
  | timer =>
    cases he
    obtain ⟨h1, h2, h3⟩ := h.yield
    exact ⟨h1, h2, h3⟩
  | serial bytes => exact absurd trivial hn
  | resume =>
    rcases resume_cases he with ⟨cur, ticks, -, hs⟩ | ⟨-, hw, rfl⟩ | ⟨n, more, -, -, hk, -⟩
    · have : Aside k (k.sysSleep cur ticks).1 := h.sleep
      rw [hs] at this
      exact this
    · exact h.waitRest hw
    · exact absurd ⟨n, more, hk⟩ hn

/-- No list gets a new waiter but that of a semaphore other than the serial line's. -/
def Spared (wait' wait : Sema → List Nat) : Prop := ∀ q ∈ wait' .serial, q ∈ wait .serial

theorem Spared.append {p : Nat} (hx : x ≠ .serial) : Spared (Function.update wait x (wait x ++ [p])) wait := by
  intro q hq
  rw [Function.update_of_ne (Ne.symm hx)] at hq
  exact hq

variable {G : Sema → Prop}

theorem sysSleep_waits {cur ticks : Nat} (h : Waits G dom wait k) (hr : Runs k) :
    Waits G dom wait (k.sysSleep cur ticks).1 := by
  unfold Kernel.sysSleep
  split
  · exact (hr.yield h).1.setCont
  · exact h.setCont

theorem semP_waits (h : Waits G dom wait k) (hr : Runs k) (hc : k.sys.curr ≠ 0) (hd : dom x) (hx : x ≠ .serial)
    (hm : k.MayWait k.sys.curr x) (hs : k.sys.semP x = some s) :
    ∃ wait', Waits G dom wait' { k with sys := s } ∧ Spared wait' wait := by
  obtain ⟨-, ⟨-, h1⟩ | ⟨-, h1⟩⟩ := h.semP hd ⟨Nat.pos_of_ne_zero hc, hr.curr⟩ hr.status hm hs
  · exact ⟨wait, h1, fun q hq => hq⟩
  · exact ⟨_, h1, .append hx⟩

theorem sysWait_waits (h : Waits G dom wait k) (hr : Runs k) (hc : k.sys.curr ≠ 0) (he : k.sysWait = some (k', out)) :
    ∃ wait', Waits G dom wait' k' ∧ Spared wait' wait := by
  unfold Kernel.sysWait at he
  simp only at he
  split at he
  · cases he
    exact ⟨wait, h.back, fun q hq => hq⟩
  · obtain ⟨s, hs, he⟩ := Option.bind_eq_some_iff.1 he
    have hd : dom (.zombie k.sys.curr) := h.zombie _ hr.curr (by rw [hr.status]; decide)
    obtain ⟨wait', h1, h2⟩ := semP_waits h hr hc hd (by simp) rfl hs
    split at he
    · cases he
      exact ⟨wait', h1.setCont, h2⟩
    · obtain ⟨k₁, hw, he⟩ := Option.bind_eq_some_iff.1 he
      cases he
      exact ⟨wait', h1.waitRest (by show s.curr < _; rw [semP_curr hs]; exact hr.curr) hw, h2⟩

theorem sysSemP_waits {id : Int} (h : Waits G dom wait k) (hr : Runs k) (hc : k.sys.curr ≠ 0)
    (he : k.sysSemP id = some (k', out)) : ∃ wait', Waits G dom wait' k' ∧ Spared wait' wait := by
  unfold Kernel.sysSemP at he
  simp only at he
  split at he
  · cases he
    exact ⟨wait, h.back, fun q hq => hq⟩
  · next u hu =>
    obtain ⟨s, hs, he⟩ := Option.bind_eq_some_iff.1 he
    cases he
    obtain ⟨-, hj, hus⟩ := procGetusem_some hu
    have hd : dom (.user u) := h.dom_user hr.curr hr.live ⟨_, hj, hus⟩
    obtain ⟨wait', h1, h2⟩ := semP_waits h hr hc hd (by simp) ⟨_, hj, hus⟩ hs
    exact ⟨wait', h1.back, h2⟩

theorem sysSemV_waits {id : Int} (h : Waits G dom wait k) (hr : Runs k)
    (hb : ∀ u, k.procGetusem k.sys.curr id = some u → G (.user u) → k.sys.value (.user u) + 1 < 2 ^ 31)
    (he : k.sysSemV id = some k') : ∃ wait', Waits G dom wait' k' ∧ Spared wait' wait := by
  unfold Kernel.sysSemV at he
  split at he
  · cases he
    exact ⟨wait, h.back, fun q hq => hq⟩
  · next u hu =>
    obtain ⟨s, hs, he⟩ := Option.bind_eq_some_iff.1 he
    cases he
    obtain ⟨-, hj, hus⟩ := procGetusem_some hu
    have hd : dom (.user u) := h.dom_user hr.curr hr.live ⟨_, hj, hus⟩
    obtain ⟨-, wait', h1, h2⟩ := h.woke hd (hb u hu) hs
    exact ⟨wait', h1.back, h2 _⟩

/-- Nobody else joins the wait list of the serial line. -/
theorem handle_waits (h : Waits (· = .serial) dom wait k) (hr : Runs k) (hnz : e ≠ .timer → k.sys.curr ≠ 0)
    (hn : ¬ OnLine k e) (he : k.handle e = some (k', out)) :
    ∃ dom' wait', Waits (· = .serial) dom' wait' k' ∧ Spared wait' wait := by
  have hsame : Spared wait wait := fun q hq => hq
  unfold Kernel.handle at he
  cases e with
  | yield =>
    cases he
    exact ⟨dom, wait, (hr.yield h).1, hsame⟩
  | sleep ticks =>
    have : Waits (· = .serial) dom wait (k.sysSleep k.tick (uint32 ticks)).1 := sysSleep_waits h hr
    rw [Option.some.inj he] at this
    exact ⟨dom, wait, this, hsame⟩
  | fork =>
    cases he
    obtain ⟨dom', wait', h1, h2⟩ := h.sysFork hr.curr hr.status
    exact ⟨dom', wait', h1, h2 _⟩
  | exec =>
    cases he
    exact ⟨dom, wait, h, hsame⟩
  | exit status =>
    obtain ⟨k₁, hk, he⟩ := Option.bind_eq_some_iff.1 he
    cases he
    obtain ⟨-, -, ⟨wait', h1, h2⟩, -⟩ := h.procMakezombie hr.curr hr.status (fun q _ hg => by cases hg) hk
    exact ⟨dom, wait', h1, h2 _⟩
  | wait =>
    obtain ⟨wait', h1, h2⟩ := sysWait_waits h hr (hnz (by simp)) he
    exact ⟨dom, wait', h1, h2⟩
  | semOpen value =>
    cases he
    obtain ⟨-, -, dom', wait', h1, h2⟩ := h.sysSemOpen (v := int32 value) hr.curr hr.status fun u hg => by cases hg
    exact ⟨dom', wait', h1, h2 _⟩
  | semP id =>
    obtain ⟨wait', h1, h2⟩ := sysSemP_waits h hr (hnz (by simp)) he
    exact ⟨dom, wait', h1, h2⟩
  | semV id =>
    obtain ⟨k₁, hk, he⟩ := Option.bind_eq_some_iff.1 he
    cases he
    obtain ⟨wait', h1, h2⟩ := sysSemV_waits h hr (fun u _ hg => by cases hg) hk
    exact ⟨dom, wait', h1, h2⟩
  | semClose id =>
    cases he
    exact ⟨dom, wait, (h.sysSemClose hr.curr hr.status).2, hsame⟩
  | read count => exact absurd trivial hn
  | timer =>
    cases he
    have h1 : Waits (· = .serial) dom wait { k with tick := uint32 (k.tick + 1) } := h.congr rfl rfl rfl
    have h2 : Runs { k with tick := uint32 (k.tick + 1) } := hr.congr rfl rfl hr.cont
    exact ⟨dom, wait, (h2.yield h1).1, hsame⟩
  | serial bytes => exact absurd trivial hn
  | resume =>
    rcases resume_cases he with ⟨cur, ticks, -, hs⟩ | ⟨-, hw, rfl⟩ | ⟨n, more, -, -, hk, -⟩
    · have : Waits (· = .serial) dom wait (k.sysSleep cur ticks).1 := sysSleep_waits h hr
      rw [hs] at this
      exact ⟨dom, wait, this, hsame⟩
    · exact ⟨dom, wait, h.waitRest hr.curr hw, hsame⟩
    · exact absurd ⟨n, more, hk⟩ hn

/-! ## One step -/

/-- Between two events every unit is in the counter or with a process in `getchar`. -/
structure Balanced (b : Nat) (k : Kernel) : Prop where
  runs : Runs k
  stock : Stock k.readers.card b k

theorem Waits.any (h : Waits G dom wait k) : Waits (fun _ => False) dom wait k :=
  ⟨h.ok, h.serial, h.zombie, h.user, h.parent, h.may, h.refs, fun _ _ hg => hg.elim⟩

theorem Stock.tight (h : Stock r b k) : ∃ dom wait, Waits (· = .serial) dom wait k ∧
    (∀ q ∈ wait .serial, k.reading q = true) ∧ 0 ≤ k.sys.value .serial + (wait .serial).length := by
  obtain ⟨dom, wait, hw, hread⟩ := h.waits
  obtain ⟨ht, -⟩ := hw.tight _ hw.serial rfl
  unfold Sys.Tight at ht
  exact ⟨dom, wait, hw, hread, by omega⟩

/-- Those behind their `sem_p` never outnumber the characters. -/
theorem Balanced.passed_le (h : Balanced b k) : (k.passed.card : Int) ≤ k.clapboard - k.head := by
  obtain ⟨dom, wait, hw, hread, hval⟩ := h.stock.tight
  have hle := hw.passed_le (Finset.Subset.refl k.passed) (Finset.filter_subset _ k.readers) fun q hq =>
    mem_readers.2 ⟨(hw.ok.procs _ hw.serial q hq).2, hread q hq⟩
  have hsum := h.stock.sum
  omega

/-- A process that goes on in `getchar` has a unit of its own. -/
theorem Balanced.served (h : Balanced b k) (hc : k.reading k.sys.curr = true) :
    Served k ∧ k.readers.card = (k.readers.erase k.sys.curr).card + 1 := by
  obtain ⟨dom, wait, hw, hread, hval⟩ := h.stock.tight
  have hmem : k.sys.curr ∈ k.readers := mem_readers.2 ⟨h.runs.curr, hc⟩
  have hcard := Finset.card_erase_add_one hmem
  have hle := hw.passed_le (Finset.erase_subset k.sys.curr k.passed)
    (Finset.erase_subset_erase k.sys.curr (Finset.filter_subset _ k.readers)) fun q hq => by
      refine Finset.mem_erase.2 ⟨fun hqc => ?_, mem_readers.2 ⟨(hw.ok.procs _ hw.serial q hq).2, hread q hq⟩⟩
      have := hw.blocked hw.serial hq
      rw [hqc, h.runs.status] at this
      cases this
  have hsum := h.stock.sum
  refine ⟨?_, hcard.symm⟩
  unfold Served
  omega

theorem not_reading (hc : k.reading k.sys.curr = false) : k.readers.erase k.sys.curr = k.readers := by
  refine Finset.erase_eq_of_notMem fun hm => ?_
  rw [(mem_readers.1 hm).2] at hc
  cases hc

/-- In the other events the current process is not in `getchar`. -/
theorem may_reading (hm : k.may e) (hn : ¬ OnLine k e ∨ ∃ count, e = .read count) : k.reading k.sys.curr = false := by
  have huser : k.cont k.sys.curr = .user → k.reading k.sys.curr = false := fun h => by
    unfold reading
    rw [h]
    rfl
  cases e with
  | resume =>
    rcases hn with hn | ⟨count, hc⟩
    · unfold reading
      cases hk : k.cont k.sys.curr with
      | read n more => exact absurd ⟨n, more, hk⟩ hn
      | _ => rfl
    · cases hc
  | timer => exact huser (of_decide_eq_true hm)
  | serial bytes => exact huser (of_decide_eq_true hm)
  | _ => exact huser (of_decide_eq_true hm).1

theorem vCalls_zero (hn : ¬ OnLine k e) : k.vCalls e = 0 := by
  cases e with
  | serial bytes => exact absurd trivial hn
  | _ => rfl

/-- `getchar` going on behind its `sem_p`. -/
theorem Balanced.resume {n : Nat} {more : List UInt8} {k₁ : Kernel} (h : Balanced b k) (hb : b < 2 ^ 31)
    (hk : k.cont k.sys.curr = .read n more) (hg : k.getcharRest = some (ch, k₁)) :
    Stock (k₁.readers.erase k₁.sys.curr).card b k₁ ∧ Runs k₁ ∧ k₁.sys.curr = k.sys.curr := by
  have hread : k.reading k.sys.curr = true := by
    unfold reading
    rw [hk]
    rfl
  obtain ⟨h1, h2⟩ := h.served hread
  obtain ⟨hpop, -⟩ := getcharRest_some hg
  obtain ⟨e1, -, -, e4⟩ := getcharRest_eq hg
  have h3 := h.stock
  rw [h2] at h3
  push_cast at h3
  unfold Served at h1
  have h4 := h3.popFront (by omega) hb
  rw [hpop] at h4
  have hreaders : k₁.readers = k.readers := readers_congr fun p => by unfold reading; rw [e4]
  rw [hreaders, e1]
  exact ⟨h4, h.runs.congr (by rw [e1]) (by rw [e1]) (by rw [e4]; exact h.runs.cont), rfl⟩

theorem handle_stock (h : Balanced b k) (hm : k.may e) (hb : b + (received e).length < 2 ^ 31)
    (he : k.handle e = some (k', out)) :
    Stock k'.readers.card (b + (received e).length) k' ∧ k'.clapboard = k.clapboard + k.vCalls e := by
  by_cases hn : OnLine k e
  · cases e with
    | serial bytes =>
      obtain ⟨k₁, hk, he⟩ := Option.bind_eq_some_iff.1 he
      cases he
      -- the same interrupt with the calls counted
      rw [← serialHandleV_fst (v := 0)] at hk
      obtain ⟨⟨k₂, v⟩, hv, rfl⟩ := Option.map_eq_some_iff.1 hk
      obtain ⟨h1, h2, h3⟩ := serialHandle_stock h.stock (Int.natCast_nonneg _) hb hv
      have hcalls : k.vCalls (.serial bytes) = v := by
        show (serialHandleV bytes k 0).elim 0 Prod.snd = v
        rw [hv, Option.elim_some]
      rw [h3, hcalls]
      exact ⟨h1, by simpa using h2⟩
    | read count =>
      have hc := may_curr h.runs hm (by simp) (by simp)
      have hread := not_reading (may_reading hm (Or.inr ⟨count, rfl⟩))
      have hs : serialRead (uint32 count) [] k = some (k', out) := he
      have h1 := serialRead_stock (by rw [hread]; exact h.stock) h.runs hc (by omega) hs
      exact ⟨h1, by rw [serialRead_clapboard hs]; exact (Int.add_zero _).symm⟩
    | resume =>
      have hc := may_curr h.runs hm (by simp) (by simp)
      obtain ⟨n', more', hk'⟩ := hn
      rcases resume_cases he with ⟨_, _, hk, -⟩ | ⟨hk, -⟩ | ⟨n, more, ch, k₁, hk, hg, hend⟩
      · rw [hk'] at hk
        cases hk
      · rw [hk'] at hk
        cases hk
      obtain ⟨h1, h2, h3⟩ := h.resume (by omega) hk hg
      have hclap : k₁.clapboard = k.clapboard + (0 : Nat) := by
        rw [getcharRest_clapboard hg]
        exact (Int.add_zero _).symm
      rcases hend with ⟨-, rfl, rfl⟩ | ⟨-, hread⟩
      · refine ⟨?_, hclap⟩
        rw [readers_back]
        exact h1.back h2
      · exact ⟨serialRead_stock h1 h2 (by rw [h3]; exact hc) (by omega) hread, by
          rw [serialRead_clapboard hread]; exact hclap⟩
    | _ => exact hn.elim
  · have hidle : Idle k := ⟨h.runs, h.stock.live, may_reading hm (Or.inl hn)⟩
    have ha := handle_aside hidle hn he
    obtain ⟨l1, l2, l3, l4⟩ := handle_line hn he
    obtain ⟨dom, wait, hw, hread⟩ := h.stock.waits
    have hnz : e ≠ .timer → k.sys.curr ≠ 0 := fun ht => may_curr h.runs hm ht fun bytes hs => by
      subst hs
      exact hn trivial
    obtain ⟨dom', wait', h1, h2⟩ := handle_waits hw h.runs hnz hn he
    have hs := h.stock.mono (Nat.le_add_right b (received e).length)
    rw [readers_congr ha.reading, vCalls_zero hn]
    refine ⟨⟨⟨dom', wait', h1, fun q hq => ?_⟩, fun q hq => ?_, ?_, ?_, ?_, ?_, ?_⟩, ?_⟩
    · rw [ha.reading]
      exact hread q (h2 q hq)
    · rw [ha.reading] at hq
      exact ha.live q hq
    · rw [ha.value, l4, l2]
      exact h.stock.sum
    · rw [l2]; exact hs.head
    · rw [l2, l4]; exact hs.le
    · rw [l4, l3]; exact hs.clapboard
    · rw [l3]; exact hs.tail
    · rw [l4]
      exact (Int.add_zero _).symm

/-- Whenever the kernel enters `pop_front`, there is a character for it. -/
theorem Balanced.pops {k₁ : Kernel} (h : Balanced b k) (hm : k.may e) (hb : b < 2 ^ 31) (hk : k₁ ∈ k.pops e) :
    Served k₁ := by
  cases e with
  | read count =>
    have hread := not_reading (may_reading hm (Or.inr ⟨count, rfl⟩))
    exact popsRead_served (by rw [hread]; exact h.stock) h.runs (may_curr h.runs hm (by simp) (by simp)) hb hk
  | resume =>
    have hc := may_curr h.runs hm (by simp) (by simp)
    unfold Kernel.pops at hk
    simp only at hk
    split at hk
    · next n more hcont =>
      unfold popsFrom at hk
      rcases List.mem_cons.1 hk with rfl | hk
      · refine (h.served ?_).1
        unfold reading
        rw [hcont]
        rfl
      · cases hg : k.getcharRest with
        | none =>
          rw [hg, Option.elim_none] at hk
          exact absurd hk List.not_mem_nil
        | some r =>
          obtain ⟨ch, k₂⟩ := r
          obtain ⟨h1, h2, h3⟩ := h.resume hb hcont hg
          rw [hg, Option.elim_some] at hk
          simp only at hk
          split at hk
          · exact absurd hk List.not_mem_nil
          · exact popsRead_served h1 h2 (by rw [h3]; exact hc) hb hk
    · exact absurd hk List.not_mem_nil
  | _ => exact absurd hk List.not_mem_nil

theorem step_balanced (h : Balanced b k) (hb : b + (received e).length < 2 ^ 31) (hs : Step k e k') :
    Balanced (b + (received e).length) k' ∧ k'.clapboard = k.clapboard + k.vCalls e := by
  unfold Step step at hs
  split at hs
  · next hm =>
    obtain ⟨⟨k₁, out⟩, hh, hs⟩ := Option.bind_eq_some_iff.1 hs
    obtain ⟨h1, h2⟩ := handle_stock h hm hb hh
    obtain ⟨dom, wait, hw, hread⟩ := h1.waits
    obtain ⟨dom₀, wait₀, hw₀, -⟩ := h.stock.waits
    obtain ⟨-, hl, -⟩ := handle_done ⟨⟨dom₀, wait₀, hw₀.any⟩, h.runs⟩ hm fits_none hh
    simp only at hs
    cases out with
    | back =>
      rw [if_neg (by decide)] at hs
      cases hs
      exact ⟨⟨hl, h1⟩, h2⟩
    | switch =>
      rw [if_pos rfl] at hs
      obtain ⟨q, -, hr, hq, hsch, hrun⟩ := Paused.schedule hl
      rw [hsch] at hs
      cases hs
      refine ⟨⟨hrun, ⟨dom, wait, hw.schedule hr hq, hread⟩, fun p hp => ?_, h1.sum, h1.head, h1.le,
        h1.clapboard, h1.tail⟩, h2⟩
      unfold Live Sys.procRun Sys.setStatus
      simp only [Function.update_apply]
      split
      · decide
      · exact h1.live p hp
  · cases hs

/-! ## Runs -/

/-- A step, with the calls of `sem_v` on `serial_sem` counted along. -/
def Tallied (t : Kernel × Nat) (e : Event) (t' : Kernel × Nat) : Prop := Step t.1 e t'.1 ∧ t'.2 = t.2 + t.1.vCalls e

theorem boot_balanced {k₀ : Kernel} (hb : boot = some k₀) : Balanced 0 k₀ ∧ k₀.clapboard = 0 := by
  obtain ⟨k₁, h1, ⟨dom, wait, hw⟩, hr⟩ := boot_inv (· = .serial)
  obtain rfl := Option.some.inj (hb.symm.trans h1)
  have hl := boot_line hb
  unfold boot initUserAndGo at hb
  obtain ⟨⟨p, k₂⟩, ha, hk⟩ := Option.bind_eq_some_iff.1 hb
  obtain ⟨-, -, -, hk₂⟩ := procAlloc_eq ha
  simp only [Option.pure_def, Option.some.injEq] at hk
  have hcont : ∀ q, k₀.reading q = false := fun q => by
    rw [← hk, hk₂]
    rfl
  have hvalue : k₀.sys.value .serial = 0 := by
    rw [← hk, hk₂]
    show (Sys.semInit _ (Sema.zombie p) 0).value Sema.serial = 0
    rw [semInit_serial (by simp)]
    show (Sys.semInit _ (Sema.zombie 0) 0).value Sema.serial = 0
    rw [semInit_serial (by simp)]
    show Function.update (fun _ : Sema => (0 : Int)) Sema.serial 0 Sema.serial = 0
    rw [Function.update_self]
  have hnone : k₀.readers = ∅ := Finset.eq_empty_of_forall_notMem fun q hq => by
    have := (mem_readers.1 hq).2
    rw [hcont] at this
    cases this
  have hst : ∀ q, k₀.sys.status q ≠ .blocked := fun q => by
    rw [← hk, hk₂]
    show
      Function.update (Function.update (Function.update (fun _ => Status.unused) 0 .running) p .uninit) p .ready q ≠ _
    simp only [Function.update_apply]
    split
    · decide
    · split
      · decide
      · decide
  have hempty : ∀ q ∈ wait .serial, k₀.reading q = true := fun q hq => absurd (hw.blocked hw.serial hq) (hst q)
  refine ⟨⟨hr, ⟨dom, wait, hw, hempty⟩, fun q hq => ?_, ?_, ?_, ?_, ?_, ?_⟩, hl.clapboard⟩
  · rw [hcont] at hq
    cases hq
  · rw [hnone, hvalue, hl.clapboard, hl.head]
    rfl
  · rw [hl.head]; rfl
  · rw [hl.head, hl.clapboard]; rfl
  · rw [hl.clapboard, hl.tail]; rfl
  · rw [hl.tail]; rfl

theorem run_balanced {k₀ : Kernel} {es : List Event} {t : Kernel × Nat} (hb : boot = some k₀)
    (hrun : Run Tallied (k₀, 0) es t) : (bytes es).length < 2 ^ 31 →
    Balanced (bytes es).length t.1 ∧ (t.2 : Int) = t.1.clapboard := by
  refine Run.invariant_log (I := fun es t => (bytes es).length < 2 ^ 31 →
    Balanced (bytes es).length t.1 ∧ (t.2 : Int) = t.1.clapboard) (fun es t e t' ih hst hlt => ?_) hrun fun _ => ?_
  · obtain ⟨hs, hv⟩ := hst
    rw [bytes_snoc, List.length_append] at hlt ⊢
    obtain ⟨h1, h2⟩ := ih (by omega)
    obtain ⟨h3, h4⟩ := step_balanced h1 hlt hs
    refine ⟨h3, ?_⟩
    rw [hv, h4, ← h2]
    push_cast
    rfl
  · obtain ⟨h1, h2⟩ := boot_balanced hb
    exact ⟨h1, h2.symm⟩

/-- `serial_sem` counts exactly the characters that may be read: after any run `sem_v` has been called on it
`clapboard` times, its counter and the processes in `getchar` add up to these characters, the indices
are in order, no more processes are behind their `sem_p` than there are characters, and every call of
`pop_front`, at any point of any event, finds one. -/
theorem serial_counts {k₀ k : Kernel} {v : Nat} {es : List Event} (hb : boot = some k₀)
    (hrun : Run Tallied (k₀, 0) es (k, v)) (hlt : (bytes es).length < 2 ^ 31) :
    (v : Int) = k.clapboard ∧ k.sys.value .serial + k.readers.card = k.clapboard - k.head ∧
      0 ≤ k.head ∧ k.head ≤ k.clapboard ∧ k.clapboard ≤ k.tail ∧
      (k.passed.card : Int) ≤ k.clapboard - k.head ∧
      ∀ e, k.may e → ∀ k₁ ∈ k.pops e, Served k₁ ∧ k₁.clapboard > k₁.head := by
  obtain ⟨h1, h2⟩ := run_balanced hb hrun hlt
  refine ⟨h2, h1.stock.sum, h1.stock.head, h1.stock.le, h1.stock.clapboard, h1.passed_le, fun e hm k₁ hk => ?_⟩
  have h3 := h1.pops hm hlt hk
  refine ⟨h3, ?_⟩
  unfold Served at h3
  omega

theorem tallied_run {es : List Event} : ∀ {t t' : Kernel × Nat},
    es.foldlM (fun t e => (t.1.step e).map fun k => (k, t.2 + t.1.vCalls e)) t = some t' → Run Tallied t es t' := by
  intro t t' h
  refine (Run.of_foldlM h).mono fun t e t' hs => ?_
  obtain ⟨k, hk, rfl⟩ := Option.map_eq_some_iff.1 hs
  exact ⟨hk, rfl⟩

/-- Process 1 waits for input, is woken when its line is complete, and goes on reading. -/
theorem serial_counts_demo : ∃ k₀ k v, boot = some k₀ ∧
    Run Tallied (k₀, 0) [.timer, .read 9, .serial [104, 105, 13], .timer] (k, v) ∧ v = 3 ∧ k.passed.card = 1 ∧
      (k.pops .resume).length = 3 ∧ (v : Int) = k.clapboard ∧ ∀ k₁ ∈ k.pops .resume, k₁.clapboard > k₁.head := by
  have hev : (boot.bind fun k₀ => [Event.timer, .read 9, .serial [104, 105, 13], .timer].foldlM
      (fun t e => (t.1.step e).map fun k => (k, t.2 + t.1.vCalls e)) (k₀, 0)).any
      (fun t => decide (t.2 = 3 ∧ t.1.passed.card = 1 ∧ (t.1.pops .resume).length = 3 ∧ t.1.may .resume)) = true := by
    decide +kernel
  obtain ⟨⟨k, v⟩, ht, hr⟩ := (Option.any_eq_true _ _).1 hev
  obtain ⟨k₀, hb, ht⟩ := Option.bind_eq_some_iff.1 ht
  obtain ⟨h1, h2, h3, h4⟩ := of_decide_eq_true hr
  have hrun := tallied_run ht
  obtain ⟨h5, -, -, -, -, -, h6⟩ := serial_counts hb hrun (by decide)
  exact ⟨k₀, k, v, hb, hrun, h1, h2, h3, h5, fun k₁ hk => (h6 .resume h4 k₁ hk).2⟩

end TinyOS.Kernel
