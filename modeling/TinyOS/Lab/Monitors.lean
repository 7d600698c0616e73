/-
The programs of lab/lab8 with a mutex alone (condition_mutex.c) and with `cnd_wait` and `cnd_broadcast` (condition.c,
philosopher_cnd.c), for any number of threads.
-/
import TinyOS.Lib.Monitor
import TinyOS.Lab.Buffer

namespace TinyOS.Monitors

open TinyOS.Lib TinyOS.Buffer

/-! ## condition.c, condition_mutex.c -/

/-- Producers and consumers; `sleeps` is for condition.c. -/
def buffer {τ : Type} (sleeps : Bool) (bufSize : Int) (role : τ → Role) : Monitor τ Int where
  sleeps := sleeps
  cond t cnt := decide (Cond bufSize (role t) cnt)
  work t := [change (role t)]

/-- A producer begins with `produce_one`, a consumer with the lock. -/
def bufferStart {τ : Type} (role : τ → Role) : Shared τ Int :=
  ⟨0, none, fun t => if role t = .producer then .other else .lock⟩

/-- How many items the threads of a role have put into the buffer, or taken from it. -/
def items {τ : Type} (role : τ → Role) (r : Role) (es : List (τ × Monitor.Place)) :
    Nat := es.countP fun e => role e.1 = r ∧ e.2 = .work 0

def InBounds (bufSize cnt : Int) : Prop := 0 ≤ cnt ∧ cnt ≤ bufSize

variable {τ : Type} [DecidableEq τ] {sleeps : Bool} {bufSize : Int} {role : τ → Role} {s s' : Shared τ Int}
  {es : List (τ × Monitor.Place)}

omit [DecidableEq τ] in
theorem change_inBounds {t : τ} {cnt : Int} (h : InBounds bufSize cnt) (hc : Cond bufSize (role t) cnt) :
    InBounds bufSize (change (role t) cnt) := by
  obtain ⟨h1, h2⟩ := h
  cases hr : role t with
  | producer =>
    rw [hr] at hc
    have hc : cnt < bufSize := hc
    exact ⟨show 0 ≤ cnt + 1 by omega, show cnt + 1 ≤ bufSize by omega⟩
  | consumer =>
    rw [hr] at hc
    have hc : 0 < cnt := hc
    exact ⟨show 0 ≤ cnt - 1 by omega, show cnt - 1 ≤ bufSize by omega⟩

omit [DecidableEq τ] in
theorem buffer_keeps : (buffer sleeps bufSize role).Keeps (InBounds bufSize) :=
  ⟨fun _ _ hx hc => change_inBounds hx (of_decide_eq_true hc)⟩

theorem buffer_inv (hb : 0 < bufSize) (hr : Run (buffer sleeps bufSize role).Step (bufferStart role) es s) :
    (buffer sleeps bufSize role).Inv (InBounds bufSize) s := by
  refine Monitor.run_inv buffer_keeps (Monitor.start_inv ⟨le_refl _, le_of_lt hb⟩ fun t => ?_) hr
  by_cases h : role t = .producer
  · exact .inl (if_pos h)
  · exact .inr (if_neg h)

omit [DecidableEq τ] in
/-- With one change the data is in bounds also for the thread with the mutex. -/
theorem inBounds (h : (buffer sleeps bufSize role).Inv (InBounds bufSize) s) : InBounds bufSize s.data := by
  cases ho : s.owner with
  | none => exact h.free ho
  | some t =>
    have hd := h.held t ho
    cases hp : s.place t with
    | check =>
      rw [hp] at hd
      exact hd.1
    | work k =>
      rw [hp] at hd
      obtain ⟨y, hy, hc, hx, hk⟩ := hd
      rw [hx]
      obtain rfl | rfl : k = 0 ∨ k = 1 := by
        have hk : k ≤ 1 := hk
        omega
      · exact hy
      · exact buffer_keeps.all t y hy hc
    | _ =>
      rw [hp] at hd
      exact hd

theorem moves_data {t : τ} (h : (buffer sleeps bufSize role).Moves s t s') :
    s'.data = if s.place t = .work 0 then change (role t) s.data else s.data := by
  obtain ⟨k, f, hp, hf, hd⟩ | ⟨hno, hd⟩ := h.data
  · -- there is one change
    have hk : k < 1 := (List.getElem?_eq_some_iff.1 hf).1
    obtain rfl : k = 0 := by omega
    obtain rfl := Option.some.inj hf
    rw [if_pos hp]
    exact hd
  · rw [if_neg fun hp => by cases hno 0 hp]
    exact hd

theorem data_eq (hr : Run (buffer sleeps bufSize role).Step (bufferStart role) es s) :
    s.data = (items role .producer es : Int) - items role .consumer es := by
  refine hr.invariant_log (I := fun es s => s.data = (items role .producer es : Int) - items role .consumer es) ?_ rfl
  rintro es s ⟨t, p⟩ s' ih ⟨hp, hs⟩
  have hp : s.place t = p := hp
  subst hp
  have happ : ∀ r, items role r (es ++ [(t, s.place t)]) = items role r es + if role t = r ∧
      s.place t = .work 0 then 1 else 0 := by
    intro r
    unfold items
    rw [List.countP_append, List.countP_singleton]
    simp only [decide_eq_true_eq]
  rw [moves_data (.of_step hs), happ, happ, ih]
  by_cases h0 : s.place t = .work 0
  · rw [if_pos h0]
    cases hr : role t with
    | producer =>
      rw [if_pos ⟨rfl, h0⟩, if_neg fun h => (by cases h.1)]
      show _ + 1 = _
      push_cast
      ring
    | consumer =>
      rw [if_neg fun h => (by cases h.1), if_pos ⟨rfl, h0⟩]
      show _ - 1 = _
      push_cast
      ring
  · rw [if_neg h0, if_neg fun h => h0 h.2, if_neg fun h => h0 h.2]
    rfl

/-- In both programs: the buffer is never over- or underrun, an assertion never fails, one thread at a time has
the mutex, nobody sleeps through a condition that is true while the mutex is free, and some thread that is not
asleep can go on. -/
theorem producers_consumers (sleeps : Bool) (role : τ → Role) (hb : 0 < bufSize) (hp : ∃ t, role t = .producer)
    (hc : ∃ t, role t = .consumer) (hr : Run (buffer sleeps bufSize role).Step (bufferStart role) es s) :
    InBounds bufSize s.data ∧ s.data = (items role .producer es : Int) - items role .consumer es ∧
    (∀ t, s.place t = .check → Cond bufSize (role t) s.data) ∧
    (∀ t u, (s.place t).inside = true → (s.place u).inside = true → t = u) ∧
    (s.owner = none → ∀ t, s.place t = .asleep → ¬ Cond bufSize (role t) s.data) ∧
    ∃ t s', s.place t ≠ .asleep ∧ (buffer sleeps bufSize role).step s t = some s' := by
  have h := buffer_inv hb hr
  refine ⟨inBounds h, data_eq hr, fun t ht => of_decide_eq_true (h.cond_true ht), fun t u => h.one,
    fun ho t ht => of_decide_eq_false (h.cond_false ho ht), h.progress fun x hx => ?_⟩
  obtain ⟨p, hp⟩ := hp
  obtain ⟨c, hc⟩ := hc
  by_cases h0 : 0 < x
  · refine ⟨c, decide_eq_true ?_⟩
    rw [hc]
    exact h0
  · refine ⟨p, decide_eq_true ?_⟩
    rw [hp]
    show x < bufSize
    obtain ⟨h1, -⟩ := hx
    omega

/-- One consumer, which falls asleep, and one producer, which puts an item into the buffer. -/
def pair (t : Bool) : Role := if t then .producer else .consumer

@[inherit_doc pair] def firstItem : List (Bool × Monitor.Place) :=
  [(false, .lock), (false, .test), (true, .other), (true, .lock), (true, .test), (true, .check), (true, .work 0)]

theorem producers_consumers_pair : ∃ s : Shared Bool Int, s.place false = .asleep ∧ InBounds 1 s.data ∧
    s.data = (items pair .producer firstItem : Int) - items pair .consumer firstItem := by
  have h : ∃ s, Run (buffer true 1 pair).Step (bufferStart pair) firstItem s ∧ s.place false = .asleep :=
    ⟨_, Monitor.run_of_foldlM rfl, rfl⟩
  obtain ⟨s, hr, h1⟩ := h
  obtain ⟨k1, k2, -⟩ := producers_consumers true pair (by decide) ⟨true, rfl⟩ ⟨false, rfl⟩ hr
  exact ⟨s, h1, k1, k2⟩

/-! ## philosopher_cnd.c -/

/-- Philosophers with `avail`: they take both forks, eat, and put both back, all of it with the mutex. -/
def dinner (phiNum : Nat) : Monitor (Fin phiNum) (Nat → Bool) where
  sleeps := true
  cond id avail := avail id && avail ((id + 1) % phiNum)
  work id := [fun avail => Function.update (Function.update avail ((id + 1) % phiNum) false) id false,
    fun avail => avail, fun avail => Function.update (Function.update avail ((id + 1) % phiNum) true) id true]

def dinnerStart (phiNum : Nat) : Shared (Fin phiNum) (Nat → Bool) := ⟨fun _ => true, none, fun _ => .other⟩

/-- At `eat`. -/
def Eats {n : Nat} (s : Shared (Fin n) (Nat → Bool)) (id : Fin n) : Prop := s.place id = .work 1

def Free (n : Nat) (avail : Nat → Bool) : Prop := ∀ i < n, avail i = true

variable {n : Nat} {d d' : Shared (Fin n) (Nat → Bool)} {fs : List (Fin n × Monitor.Place)}

theorem free_cond {avail : Nat → Bool} (h : Free n avail) (id : Fin n) : (dinner n).cond id avail = true := by
  show (avail id && avail ((id + 1) % n)) = true
  rw [h id id.isLt, h _ (Nat.mod_lt _ (Nat.lt_of_le_of_lt (Nat.zero_le _) id.isLt))]
  rfl

theorem dinner_keeps : (dinner n).Keeps (Free n) := by
  refine ⟨fun id avail h _ i hi => ?_⟩
  show Function.update (Function.update (Function.update (Function.update avail ((id + 1) % n) false) id false)
    ((id + 1) % n) true) id true i = true
  by_cases h1 : i = id
  · rw [h1, Function.update_self]
  · rw [Function.update_of_ne h1]
    by_cases h2 : i = (id + 1) % n
    · rw [h2, Function.update_self]
    · rw [Function.update_of_ne h2, Function.update_of_ne h1, Function.update_of_ne h2]
      exact h i hi

theorem dinner_inv (hr : Run (dinner n).Step (dinnerStart n) fs d) : (dinner n).Inv (Free n) d :=
  Monitor.run_inv dinner_keeps (Monitor.start_inv (fun _ _ => rfl) fun _ => .inl rfl) hr

/-- Whoever gets the mutex finds all forks on the table. -/
theorem never_waits (hr : Run (dinner n).Step (dinnerStart n) fs d) (id : Fin n) :
    d.place id ≠ .asleep ∧ d.place id ≠ .awake := by
  have hboth : (dinner n).Inv (Free n) d ∧ ∀ id, ¬ (d.place id = .asleep ∨ d.place id = .awake) := by
    refine hr.invariant (I := fun d => (dinner n).Inv (Free n) d ∧ ∀ id,
      ¬ (d.place id = .asleep ∨ d.place id = .awake)) ?_ ?_
    case refine_2 => exact ⟨dinner_inv .nil, fun _ => by rintro (h | h) <;> cases h⟩
    rintro s ⟨t, p⟩ s' ⟨h, hno⟩ ⟨-, hs⟩
    refine ⟨h.step dinner_keeps (.of_step hs), fun id hid => ?_⟩
    obtain h1 | h1 | ⟨-, h1, h2⟩ := (Monitor.Moves.of_step hs).sleep hid
    · exact hno id (.inl h1)
    · exact hno id (.inr h1)
    · have hd := h.held t ((h.owner t).2 (by rw [h1]; rfl))
      rw [h1] at hd
      exact Bool.noConfusion (h2.symm.trans (free_cond hd t))
  exact not_or.1 (hboth.2 id)

/-- The forks while a philosopher eats. -/
theorem eats_forks (h : (dinner n).Inv (Free n) d) {id : Fin n} (he : Eats d id) (i : Nat) (hi : i < n) :
    d.data i = false ↔ i = id ∨ i = (id + 1) % n := by
  have hd := h.held id ((h.owner id).2 (by rw [he]; rfl))
  rw [he] at hd
  obtain ⟨avail, ha, -, hx, -⟩ : ∃ y, Free n y ∧ _ ∧ d.data = (dinner n).all id 1 y ∧ _ := hd
  have hx : d.data = Function.update (Function.update avail ((id + 1) % n) false) id false := hx
  rw [hx]
  by_cases h1 : i = id
  · rw [h1, Function.update_self]
    exact iff_of_true rfl (.inl rfl)
  · rw [Function.update_of_ne h1]
    by_cases h2 : i = (id + 1) % n
    · rw [h2, Function.update_self]
      exact iff_of_true rfl (.inr rfl)
    · rw [Function.update_of_ne h2, ha i hi]
      exact iff_of_false (by decide) (by rintro (h | h); exacts [h1 h, h2 h])

/-- Philosophers eat one at a time, with exactly their two forks off the table, never wait for a fork, and
somebody is always able to go on: `eat` runs with the mutex, so that `cnd_wait` is never called. -/
theorem philosophers_alone (hn : 0 < n) (hr : Run (dinner n).Step (dinnerStart n) fs d) :
    (∀ i j, Eats d i → Eats d j → i = j) ∧
    (∀ id, Eats d id → ∀ i < n, d.data i = false ↔ i = id ∨ i = (id + 1) % n) ∧
    (d.owner = none → ∀ i < n, d.data i = true) ∧
    (∀ id, d.place id ≠ .asleep ∧ d.place id ≠ .awake) ∧ ∃ id d', (dinner n).step d id = some d' := by
  have h := dinner_inv hr
  refine ⟨fun i j hi hj => h.one (by rw [hi]; rfl) (by rw [hj]; rfl), fun id => eats_forks h,
    h.free, never_waits hr, ?_⟩
  obtain ⟨id, d', -, hs⟩ := h.progress fun x hx => ⟨(⟨0, hn⟩ : Fin n), free_cond hx _⟩
  exact ⟨id, d', hs⟩

/-- One of two philosophers eats. -/
theorem philosophers_alone_two : ∃ d : Shared (Fin 2) (Nat → Bool), Eats d 0 ∧ ¬ Eats d 1 ∧
    (d.data 0 = false ↔ 0 = 0 ∨ 0 = (0 + 1) % 2) := by
  have h : ∃ d, Run (dinner 2).Step (dinnerStart 2) [(0, .other), (0, .lock), (0, .test), (0, .check), (0, .work 0)] d ∧
      Eats d 0 :=
    ⟨_, Monitor.run_of_foldlM rfl, rfl⟩
  obtain ⟨d, hr, h0⟩ := h
  obtain ⟨k1, k2, -⟩ := philosophers_alone (by decide) hr
  exact ⟨d, h0, fun h1 => absurd (k1 0 1 h0 h1) (by decide), k2 0 h0 0 (by decide)⟩

end TinyOS.Monitors
