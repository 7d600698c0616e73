/-
The dining philosophers (user/src/phase4/philosopher.c) for any number of them, on semaphores that queue their
waiters: neighbours do not eat at the same time, and somebody is always able to go on.
-/
import TinyOS.Sem.Queue

namespace TinyOS

open TinyOS.Lib

namespace Philosopher

/-- `phi_usem_id[i]` and `max_eat_usem_id`. -/
inductive Usem where
  | phi (i : Nat)
  | maxEat
  deriving DecidableEq

/-- What a philosopher does next. -/
inductive Loc where
  | think
  | pMaxEat
  | pLeft
  | pRight
  | eat
  | vRight
  | vLeft
  | vMaxEat
  deriving DecidableEq

/-- The semaphores as `init` opens them. -/
def opened (phiNum : Nat) : Usem → Int
  | .phi _ => 1
  | .maxEat => phiNum - 1

/-- The statement at each place of the loop. -/
def philosopher (phiNum id : Nat) : Loc → Stmt Usem
  | .think => .other
  | .pMaxEat => .p .maxEat
  | .pLeft => .p (.phi id)
  | .pRight => .p (.phi ((id + 1) % phiNum))
  | .eat => .other
  | .vRight => .v (.phi ((id + 1) % phiNum))
  | .vLeft => .v (.phi id)
  | .vMaxEat => .v .maxEat

def Loc.next : Loc → Loc
  | .think => .pMaxEat
  | .pMaxEat => .pLeft
  | .pLeft => .pRight
  | .pRight => .eat
  | .eat => .vRight
  | .vRight => .vLeft
  | .vLeft => .vMaxEat
  | .vMaxEat => .think

/-- What a philosopher has taken and not given back. -/
def taken (phiNum id : Nat) : Loc → List Usem
  | .think => []
  | .pMaxEat => []
  | .pLeft => [.maxEat]
  | .pRight => [.maxEat, .phi id]
  | .eat => [.maxEat, .phi id, .phi ((id + 1) % phiNum)]
  | .vRight => [.maxEat, .phi id, .phi ((id + 1) % phiNum)]
  | .vLeft => [.maxEat, .phi id]
  | .vMaxEat => [.maxEat]

def dinner (phiNum : Nat) : Program Usem Loc where
  n := phiNum
  stmt := philosopher phiNum
  next := Loc.next
  taken := taken phiNum
  taken_next i l x := by
    cases l <;> simp only [Loc.next, taken, philosopher, List.count_cons, List.count_nil, beq_iff_eq, Stmt.takes_other,
      Stmt.takes_p, Stmt.takes_v, Stmt.gives_other, Stmt.gives_p, Stmt.gives_v] <;> push_cast <;> omega

abbrev Dinner := Procs Usem Loc

/-- After `init`. -/
def start (phiNum : Nat) : Dinner := Program.start (opened phiNum) .think

/-- A philosopher between P and V of `max_eat_usem_id`: who may hold or wait for forks. -/
def Admitted (s : Dinner) (i : Nat) : Prop := s.pc i ≠ .think ∧ s.pc i ≠ .pMaxEat

instance (s : Dinner) (i : Nat) : Decidable (Admitted s i) := inferInstanceAs (Decidable (_ ∧ _))

variable {n i j : Nat} {s : Dinner} {es : List Nat}

theorem run_inv (hn : 1 ≤ n) (hr : Run (dinner n).Step (start n) es s) : (dinner n).Inv (opened n) s := by
  refine Program.run_inv (fun _ => rfl) (fun x => ?_) hr
  cases x with
  | phi i => exact zero_le_one
  | maxEat =>
    show (0 : Int) ≤ n - 1
    omega

/-! ## The forks -/

/-- The philosopher whose right fork is `x`. -/
def prev (n x : Nat) : Nat := if x = 0 then n - 1 else x - 1

theorem succ_mod_eq (hi : i < n) : (i + 1) % n = if i + 1 = n then 0 else i + 1 := by
  split
  · next h => rw [h, Nat.mod_self]
  · next h => exact Nat.mod_eq_of_lt (by omega)

theorem succ_mod_iff {x : Nat} (hi : i < n) (hx : x < n) : (i + 1) % n = x ↔ i = prev n x := by
  rw [succ_mod_eq hi]
  unfold prev
  split <;> split <;> omega

theorem prev_lt {x : Nat} (hx : x < n) : prev n x < n := by
  unfold prev
  split <;> omega

theorem prev_ne {x : Nat} (hn : 2 ≤ n) : prev n x ≠ x := by
  unfold prev
  split <;> omega

/-- The units of its left fork that a philosopher has taken or waits for. -/
def left (s : Dinner) (i : Nat) : Int :=
  match s.pc i with
  | .pLeft => if s.call i = .out then 0 else 1
  | .pRight | .eat | .vRight | .vLeft => 1
  | .think | .pMaxEat | .vMaxEat => 0

def right (s : Dinner) (i : Nat) : Int :=
  match s.pc i with
  | .pRight => if s.call i = .out then 0 else 1
  | .eat | .vRight => 1
  | .think | .pMaxEat | .pLeft | .vLeft | .vMaxEat => 0

theorem left_le : left s i ≤ 1 := by
  unfold left
  split
  · split <;> decide
  all_goals decide

theorem right_le : right s i ≤ 1 := by
  unfold right
  split
  · split <;> decide
  all_goals decide

theorem owed_phi (x : Nat) : (dinner n).owed s i (.phi x) =
    (if i = x then left s i else 0) + if (i + 1) % n = x then right s i else 0 := by
  show ((taken n i (s.pc i)).count (.phi x) : Int) +
    (if s.call i = .out then 0 else (philosopher n i (s.pc i)).takes (.phi x)) = _
  unfold left right
  cases hc : s.call i <;> cases hl : s.pc i <;> simp [taken, philosopher, List.count_cons, add_comm]

/-- The value of a fork's semaphore is what its two philosophers leave of it. -/
theorem value_phi {x : Nat} (h : (dinner n).Inv (opened n) s) (hx : x < n) :
    s.sems.value (.phi x) = 1 - left s x - right s (prev n x) := by
  have hsum : ∑ i ∈ Finset.range n, (dinner n).owed s i (.phi x) = left s x + right s (prev n x) := by
    have hterm : ∀ i ∈ Finset.range n, (dinner n).owed s i (.phi x) =
        (if i = x then left s i else 0) + if i = prev n x then right s i else 0 := fun i hi => by
      simp only [owed_phi, succ_mod_iff (Finset.mem_range.1 hi) hx]
    rw [Finset.sum_congr rfl hterm, Finset.sum_add_distrib, Finset.sum_ite_eq' , Finset.sum_ite_eq',
      if_pos (Finset.mem_range.2 hx), if_pos (Finset.mem_range.2 (prev_lt hx))]
  have hledger := h.ledger (.phi x)
  rw [show (dinner n).n = n from rfl, hsum] at hledger
  rw [hledger]
  show (1 : Int) - _ = _
  omega

/-- Who waits for a fork: the philosopher to the right of it, or the one to the left of it. -/
theorem waits_phi {x : Nat} (h : (dinner n).Inv (opened n) s) (hx : x < n) (hi : i ∈ s.sems.wait (.phi x)) :
    (i = x ∧ s.pc i = .pLeft) ∨ (i = prev n x ∧ s.pc i = .pRight) := by
  obtain ⟨hlt, -, hst⟩ := (h.waiters _ _).1 hi
  replace hst : philosopher n i (s.pc i) = .p (.phi x) := hst
  cases hl : s.pc i <;> rw [hl] at hst <;> simp only [philosopher, Stmt.p.injEq, Usem.phi.injEq, reduceCtorEq] at hst
  · exact Or.inl ⟨hst, rfl⟩
  · exact Or.inr ⟨(succ_mod_iff hlt hx).1 hst, rfl⟩

theorem not_both_eat (h : (dinner n).Inv (opened n) s) (hi : i < n) (he : s.pc i = .eat) :
    s.pc ((i + 1) % n) ≠ .eat := by
  intro he'
  have hx : (i + 1) % n < n := Nat.mod_lt _ (by omega)
  have hprev : i = prev n ((i + 1) % n) := (succ_mod_iff hi hx).1 rfl
  have hl : left s ((i + 1) % n) = 1 := by unfold left; rw [he']
  have hr : right s (prev n ((i + 1) % n)) = 1 := by unfold right; rw [← hprev, he]
  have hvalue := value_phi h hx
  have htight := h.tight (.phi ((i + 1) % n))
  -- the fork is short of a unit, so that one of the two waits for it
  obtain ⟨k, hk⟩ := List.exists_mem_of_length_pos (l := s.sems.wait (.phi ((i + 1) % n))) (by omega)
  rcases waits_phi h hx hk with ⟨rfl, hpc⟩ | ⟨rfl, hpc⟩
  · rw [he'] at hpc
    cases hpc
  · rw [← hprev, he] at hpc
    cases hpc

/-! ## The admission -/

theorem owed_maxEat : (dinner n).owed s i .maxEat =
    if s.pc i = .think ∨ (s.pc i = .pMaxEat ∧ s.call i = .out) then 0 else 1 := by
  show ((taken n i (s.pc i)).count .maxEat : Int) +
    (if s.call i = .out then 0 else (philosopher n i (s.pc i)).takes .maxEat) = _
  cases hc : s.call i <;> cases hl : s.pc i <;> simp [taken, philosopher]

/-- The waiters counted among the philosophers. -/
theorem sum_waiters (h : (dinner n).Inv (opened n) s) (x : Usem) :
    (∑ i ∈ Finset.range n, if i ∈ s.sems.wait x then (1 : Int) else 0) = (s.sems.wait x).length := by
  have hset : (Finset.range n).filter (· ∈ s.sems.wait x) = (s.sems.wait x).toFinset := by
    ext i
    rw [Finset.mem_filter, List.mem_toFinset, Finset.mem_range]
    exact and_iff_right_of_imp fun hi => ((h.waiters x i).1 hi).1
  rw [Finset.sum_boole, hset, List.toFinset_card_of_nodup (h.nodup x)]

theorem waits_maxEat (h : (dinner n).Inv (opened n) s) (hi : i ∈ s.sems.wait .maxEat) :
    s.call i = .blocked ∧ s.pc i = .pMaxEat := by
  obtain ⟨-, hc, hst⟩ := (h.waiters _ _).1 hi
  replace hst : philosopher n i (s.pc i) = .p .maxEat := hst
  refine ⟨hc, ?_⟩
  cases hl : s.pc i <;> rw [hl] at hst <;> simp [philosopher] at hst ⊢

theorem admitted_le (hn : 1 ≤ n) (h : (dinner n).Inv (opened n) s) :
    ((Finset.range n).filter (Admitted s)).card ≤ n - 1 := by
  have hterm : ∀ i ∈ Finset.range n,
      ((if Admitted s i then (1 : Int) else 0) + if i ∈ s.sems.wait .maxEat then 1 else 0) ≤
      (dinner n).owed s i .maxEat := fun i _ => by
    by_cases hw : i ∈ s.sems.wait .maxEat
    · obtain ⟨hc, hl⟩ := waits_maxEat h hw
      rw [if_pos hw, if_neg fun ha => ha.2 hl, owed_maxEat, if_neg (by simp [hl, hc]), zero_add]
    · rw [if_neg hw, add_zero]
      by_cases ha : Admitted s i
      · rw [if_pos ha, owed_maxEat, if_neg fun hl => hl.elim ha.1 fun hl => ha.2 hl.1]
      · rw [if_neg ha]
        exact Program.owed_nonneg
  have hsum := Finset.sum_le_sum hterm
  rw [Finset.sum_add_distrib, sum_waiters h, Finset.sum_boole] at hsum
  replace hsum : (((Finset.range n).filter (Admitted s)).card : Int) + (s.sems.wait .maxEat).length ≤
    ∑ i ∈ Finset.range n, (dinner n).owed s i .maxEat := hsum
  have hledger := h.ledger .maxEat
  have htight := h.tight .maxEat
  rw [show (dinner n).n = n from rfl, show opened n .maxEat = (n : Int) - 1 from rfl] at hledger
  omega

/-! ## No deadlock -/

theorem blocked_at (h : (dinner n).Inv (opened n) s) (hb : s.call i = .blocked) :
    s.pc i = .pMaxEat ∨ s.pc i = .pLeft ∨ s.pc i = .pRight := by
  obtain ⟨x, hx⟩ := h.calls i (by rw [hb]; decide)
  replace hx : philosopher n i (s.pc i) = .p x := hx
  cases hl : s.pc i <;> rw [hl] at hx <;> simp [philosopher] at hx ⊢

/-- A blocked philosopher waits, by the place it is blocked at. -/
theorem blocked_waits {x : Usem} (h : (dinner n).Inv (opened n) s) (hi : i < n) (hb : s.call i = .blocked)
    (hx : philosopher n i (s.pc i) = .p x) : i ∈ s.sems.wait x := (h.waiters x i).2 ⟨hi, hb, hx⟩

theorem two_le_length {l : List Nat} (hi : i ∈ l) (hj : j ∈ l) (hij : i ≠ j) : 2 ≤ l.length := by
  match l, hi, hj with
  | [k], hi, hj => exact absurd ((List.mem_singleton.1 hi).trans (List.mem_singleton.1 hj).symm) hij
  | _ :: _ :: _, _, _ => simp

/-- Where somebody waits for a fork, both its units are taken or waited for. -/
theorem fork_short {x : Nat} (h : (dinner n).Inv (opened n) s) (hx : x < n) (hi : i ∈ s.sems.wait (.phi x)) :
    left s x = 1 ∧ right s (prev n x) = 1 := by
  have hvalue := value_phi h hx
  have ht := h.tight (.phi x)
  have hlen := List.length_pos_of_mem hi
  have hl := left_le (s := s) (i := x)
  have hr := right_le (s := s) (i := prev n x)
  omega

/-- The two philosophers at a fork do not both wait for it. -/
theorem not_both_wait {x : Nat} (hn : 2 ≤ n) (h : (dinner n).Inv (opened n) s) (hx : x < n)
    (hi : x ∈ s.sems.wait (.phi x)) :
    prev n x ∉ s.sems.wait (.phi x) := by
  intro hi'
  have htwo := two_le_length hi hi' (prev_ne hn).symm
  have hvalue := value_phi h hx
  have ht := h.tight (.phi x)
  obtain ⟨hl, hr⟩ := fork_short h hx hi
  omega

/-- When all are blocked, all units of the admission are taken, and one philosopher waits for it. -/
theorem one_outside (h : (dinner n).Inv (opened n) s) (hc : ∀ i < n, s.call i = .blocked) :
    ∃ z, s.sems.wait .maxEat = [z] := by
  have hone : ∀ i ∈ Finset.range n, (dinner n).owed s i .maxEat = 1 := fun i hi => by
    have hb := hc i (Finset.mem_range.1 hi)
    rw [owed_maxEat, if_neg]
    rcases blocked_at h hb with hl | hl | hl <;> simp [hl, hb]
  have hledger := h.ledger .maxEat
  have htight := h.tight .maxEat
  rw [show (dinner n).n = n from rfl, show opened n .maxEat = (n : Int) - 1 from rfl, Finset.sum_congr rfl hone,
    Finset.sum_const, Finset.card_range, nsmul_one] at hledger
  exact List.length_eq_one_iff.1 (by omega)

theorem not_all_blocked (hn : 2 ≤ n) (h : (dinner n).Inv (opened n) s) : ∃ i < n, s.call i ≠ .blocked := by
  by_contra hc
  push Not at hc
  obtain ⟨z, hz⟩ := one_outside h hc
  have hzmem : z ∈ s.sems.wait .maxEat := hz ▸ List.mem_cons_self
  have hzn : z < n := ((h.waiters _ _).1 hzmem).1
  obtain ⟨-, hzpc⟩ := waits_maxEat h hzmem
  -- the philosopher to the left of the one that is not admitted
  have hy := prev_lt hzn
  have hyb := hc _ hy
  rcases blocked_at h hyb with hl | hl | hl
  · have hmem := blocked_waits h hy hyb (x := .maxEat) (by rw [hl]; rfl)
    rw [hz, List.mem_singleton] at hmem
    exact prev_ne hn hmem
  · -- for its left fork it would wait together with its own neighbour
    have hmem := blocked_waits h hy hyb (x := .phi (prev n z)) (by rw [hl]; rfl)
    have hright := (fork_short h hy hmem).2
    have hyy := prev_lt hy
    have hb' := hc _ hyy
    have hpc : s.pc (prev n (prev n z)) = .pRight := by
      unfold right at hright
      rcases blocked_at h hb' with hl' | hl' | hl' <;> simp [hl'] at hright ⊢
    refine not_both_wait hn h hy hmem (blocked_waits h hyy hb' ?_)
    rw [hpc]
    exact congrArg (fun a => Stmt.p (Usem.phi a)) ((succ_mod_iff hyy hy).2 rfl)
  · -- nobody has its right fork
    have hmem := blocked_waits h hy hyb (x := .phi z) (by
      rw [hl]
      exact congrArg (fun a => Stmt.p (Usem.phi a)) ((succ_mod_iff hy hzn).2 rfl))
    have hleft : left s z = 0 := by
      unfold left
      rw [hzpc]
    rw [(fork_short h hzn hmem).1] at hleft
    cases hleft

/-- In every state of every run neighbours do not eat at the same time, at most `n - 1` philosophers hold or wait
for forks, and one of them is not blocked and can go on. -/
theorem dinner_safe (hn : 2 ≤ n) (hr : Run (dinner n).Step (start n) es s) :
    (∀ i < n, s.pc i = .eat → s.pc ((i + 1) % n) ≠ .eat) ∧
    ((Finset.range n).filter (Admitted s)).card ≤ n - 1 ∧
    ∃ i < n, s.call i ≠ .blocked ∧ ((dinner n).step s i).isSome := by
  have h := run_inv (by omega) hr
  obtain ⟨i, hi, hb⟩ := not_all_blocked hn h
  exact ⟨fun i hi he => not_both_eat h hi he, admitted_le (by omega) h, i, hi, hb, h.step_isSome hi hb⟩

/-- Philosopher 0 eats, and philosopher 1 waits for the fork between them. -/
theorem dinner_safe_demo : ∃ s, Run (dinner 3).Step (start 3) [0, 0, 0, 0, 1, 1, 1] s ∧ s.pc 0 = .eat ∧
    s.call 1 = .blocked ∧ s.pc ((0 + 1) % 3) ≠ .eat ∧ ((Finset.range 3).filter (Admitted s)).card ≤ 3 - 1 ∧
    ∃ i < 3, s.call i ≠ .blocked ∧ ((dinner 3).step s i).isSome := by
  have hev : ([0, 0, 0, 0, 1, 1, 1].foldlM (dinner 3).step (start 3)).any
      (fun s => decide (s.pc 0 = .eat ∧ s.call 1 = .blocked)) = true := by decide
  obtain ⟨s, hs, hsb⟩ := (Option.any_eq_true _ _).1 hev
  obtain ⟨he, hb⟩ := of_decide_eq_true hsb
  have hr : Run (dinner 3).Step (start 3) [0, 0, 0, 0, 1, 1, 1] s := .of_foldlM hs
  obtain ⟨h1, h2, h3⟩ := dinner_safe (by decide) hr
  exact ⟨s, hr, he, hb, h1 0 (by decide) he, h2, h3⟩

end Philosopher

end TinyOS
