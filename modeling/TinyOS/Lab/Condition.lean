/-
The condition variable of lab/lab8/condition_sem.c, with a handshake for every waiter it wakes: any number of
threads, each at some statement of `my_cv_wait`, `my_cv_signal` or `my_cv_broadcast`, or outside them.
-/
import TinyOS.Lib.Run
import TinyOS.Lib.Tally

namespace TinyOS.Condition

open TinyOS.Lib

/-! ## Semaphores -/

/-- `none` while the caller is blocked. -/
def semWait (v : Nat) : Option Nat := if 0 < v then some (v - 1) else none

def semPost (v : Nat) : Nat := v + 1

/-- The caller's mutex, and the fields of `my_cv_t`. A mutex is the value of its semaphore. -/
structure Cv where
  mutex : Nat
  lock : Nat
  nwait : Int
  sleep : Nat
  handshake : Nat

/-- `my_mutex_init` and `my_cv_init`. -/
def myCvInit : Cv := ⟨1, 1, 0, 0, 0⟩

/-! ## The three functions -/

/-- The statement that a thread comes to next: of `my_cv_wait`, of `my_cv_signal`, and of `my_cv_broadcast`, whose
loop variable is `i`. -/
inductive Loc where
  | waitLock
  | waitInc
  | waitUnlock
  | waitRelease
  | waitSleep
  | waitShake
  | waitAcquire
  | sigLock
  | sigTest
  | sigDec
  | sigPost
  | sigShake
  | sigUnlock
  | brLock
  | brTest (i : Nat)
  | brPost (i : Nat)
  | brShake (i : Nat)
  | brClear
  | brUnlock
  deriving DecidableEq

/-- A statement, and the place after it, with none after the last one. A statement that blocks does nothing. -/
def exec (c : Cv) : Loc → Option (Cv × Option Loc)
  | .waitLock => (semWait c.lock).map fun v => ({ c with lock := v }, some .waitInc)
  | .waitInc => some ({ c with nwait := c.nwait + 1 }, some .waitUnlock)
  | .waitUnlock => some ({ c with lock := semPost c.lock }, some .waitRelease)
  | .waitRelease => some ({ c with mutex := semPost c.mutex }, some .waitSleep)
  | .waitSleep => (semWait c.sleep).map fun v => ({ c with sleep := v }, some .waitShake)
  | .waitShake => some ({ c with handshake := semPost c.handshake }, some .waitAcquire)
  | .waitAcquire => (semWait c.mutex).map fun v => ({ c with mutex := v }, none)
  | .sigLock => (semWait c.lock).map fun v => ({ c with lock := v }, some .sigTest)
  | .sigTest => some (c, some (if 0 < c.nwait then .sigDec else .sigUnlock))
  | .sigDec => some ({ c with nwait := c.nwait - 1 }, some .sigPost)
  | .sigPost => some ({ c with sleep := semPost c.sleep }, some .sigShake)
  | .sigShake => (semWait c.handshake).map fun v => ({ c with handshake := v }, some .sigUnlock)
  | .sigUnlock => some ({ c with lock := semPost c.lock }, none)
  | .brLock => (semWait c.lock).map fun v => ({ c with lock := v }, some (.brTest 0))
  | .brTest i => some (c, some (if (i : Int) < c.nwait then .brPost i else .brClear))
  | .brPost i => some ({ c with sleep := semPost c.sleep }, some (.brShake i))
  | .brShake i => (semWait c.handshake).map fun v => ({ c with handshake := v }, some (.brTest (i + 1)))
  | .brClear => some ({ c with nwait := 0 }, some .brUnlock)
  | .brUnlock => some ({ c with lock := semPost c.lock }, none)

/-! ## The threads -/

/-- Where each thread is, and whether it holds the mutex. -/
structure State (τ : Type) where
  cv : Cv
  pc : τ → Option Loc
  holds : τ → Bool

/-- What a thread does: outside the three functions it takes or gives back the mutex or calls one of them, inside it
executes a statement. -/
inductive Act where
  | lock
  | unlock
  | wait
  | signal
  | broadcast
  | exec (l : Loc)
  deriving DecidableEq

variable {τ : Type} [Fintype τ] [DecidableEq τ]

/-- Who holds the mutex after a statement of thread `t`. -/
def holdsAfter (holds : τ → Bool) (t : τ) : Loc → τ → Bool
  | .waitRelease => Function.update holds t false
  | .waitAcquire => Function.update holds t true
  | _ => holds

/-- `my_cv_wait` is called with the mutex held. -/
def step (s : State τ) : τ × Act → Option (State τ)
  | (t, .lock) =>
    if s.pc t = none then
      (semWait s.cv.mutex).map fun v => ⟨{ s.cv with mutex := v }, s.pc, Function.update s.holds t true⟩
    else none
  | (t, .unlock) =>
    if s.pc t = none ∧ s.holds t then
      some ⟨{ s.cv with mutex := semPost s.cv.mutex }, s.pc, Function.update s.holds t false⟩
    else none
  | (t, .wait) =>
    if s.pc t = none ∧ s.holds t then some { s with pc := Function.update s.pc t (some .waitLock) } else none
  | (t, .signal) => if s.pc t = none then some { s with pc := Function.update s.pc t (some .sigLock) } else none
  | (t, .broadcast) => if s.pc t = none then some { s with pc := Function.update s.pc t (some .brLock) } else none
  | (t, .exec l) =>
    if s.pc t = some l then
      (TinyOS.Condition.exec s.cv l).map fun r => ⟨r.1, Function.update s.pc t r.2, holdsAfter s.holds t l⟩
    else none

def Step (s : State τ) (e : τ × Act) (s' : State τ) : Prop := step s e = some s'

def start : State τ := ⟨myCvInit, fun _ => none, fun _ => false⟩

/-! ## Places -/

/-- Between taking and giving back `cv->lock`. -/
def inside : Option Loc → Bool
  | some .waitInc | some .waitUnlock | some .sigTest | some .sigDec | some .sigPost | some .sigShake | some .sigUnlock
  | some (.brTest _) | some (.brPost _) | some (.brShake _) | some .brClear | some .brUnlock => true
  | _ => false

/-- Registered in `my_cv_wait`, and not yet past `sem_wait(&cv->sleep)`. -/
def registered : Option Loc → Bool
  | some .waitUnlock | some .waitRelease | some .waitSleep => true
  | _ => false

/-- Past `sem_wait(&cv->sleep)`, and not yet past the handshake. -/
def shaking : Option Loc → Bool
  | some .waitShake => true
  | _ => false

/-! ## The invariant -/

/-- `nwait` and the semaphores against the numbers of registered and shaking threads, when nobody is inside, or
somebody at a place. -/
def Ledger (c : Cv) (r h : Nat) : Option Loc → Prop
  | some .sigDec => c.nwait = r ∧ 0 < c.nwait ∧ c.sleep = 0 ∧ c.handshake = 0 ∧ h = 0
  | some .sigPost => c.nwait + 1 = r ∧ c.sleep = 0 ∧ c.handshake = 0 ∧ h = 0
  | some .sigShake => c.nwait + c.sleep = r ∧ c.sleep + h + c.handshake = 1
  | some (.brTest i) => c.nwait = r + i ∧ c.sleep = 0 ∧ c.handshake = 0 ∧ h = 0
  | some (.brPost i) => c.nwait = r + i ∧ (i : Int) < c.nwait ∧ c.sleep = 0 ∧ c.handshake = 0 ∧ h = 0
  | some (.brShake i) => c.nwait + c.sleep = r + i + 1 ∧ (i : Int) < c.nwait ∧ c.sleep + h + c.handshake = 1
  | some .brClear => r = 0 ∧ c.sleep = 0 ∧ c.handshake = 0 ∧ h = 0
  | some .brUnlock => r = 0 ∧ c.nwait = 0 ∧ c.sleep = 0 ∧ c.handshake = 0 ∧ h = 0
  | _ => c.nwait = r ∧ c.sleep = 0 ∧ c.handshake = 0 ∧ h = 0

/-- Where the thread inside is, or that there is none. -/
def Current (s : State τ) (o : Option Loc) : Prop := (o = none ∧ s.cv.lock = 1) ∨ ∃ t, s.pc t = o ∧ inside o = true

structure Inv (s : State τ) : Prop where
  lock : s.cv.lock + tally s.pc inside = 1
  current : ∀ o, Current s o → Ledger s.cv (tally s.pc registered) (tally s.pc shaking) o

variable {s s' : State τ} {t u : τ} {a : Act} {l : Loc} {o o' : Option Loc} {c c' : Cv} {r r' h h' : Nat}
  {holds : τ → Bool}

theorem semWait_some {v w : Nat} (hw : semWait v = some w) : v = w + 1 := by
  unfold semWait at hw
  split at hw
  · cases hw
    omega
  · cases hw

omit [DecidableEq τ] in
theorem start_inv : Inv (start : State τ) := by
  have hnone : ∀ p : Option Loc → Bool, p none = false → tally (start : State τ).pc p = 0 := fun p hp => by
    by_contra hc
    obtain ⟨t, ht⟩ := tally_pos.1 (Nat.pos_of_ne_zero hc)
    rw [show (start : State τ).pc t = none from rfl, hp] at ht
    cases ht
  refine ⟨by rw [hnone _ rfl]; rfl, fun o ho => ?_⟩
  rw [hnone _ rfl, hnone _ rfl]
  rcases ho with ⟨rfl, -⟩ | ⟨t, rfl, ht⟩
  · exact ⟨rfl, rfl, rfl, rfl⟩
  · cases ht

/-! ## What does not concern the thread inside -/

theorem Ledger.congr (hl : Ledger c r h o) (hn : c'.nwait = c.nwait) (hs : c'.sleep = c.sleep)
    (hh : c'.handshake = c.handshake) :
    Ledger c' r h o := by
  unfold Ledger at hl ⊢
  rw [hn, hs, hh]
  exact hl

/-- A waiter passes `sem_wait(&cv->sleep)`. -/
theorem Ledger.pass (hl : Ledger c r h o) (hn : c'.nwait = c.nwait) (hs : c.sleep = c'.sleep + 1)
    (hh : c'.handshake = c.handshake) (hr : r' + 1 = r) (hw : h' = h + 1) : Ledger c' r' h' o := by
  unfold Ledger at hl ⊢
  rw [hs] at hl
  rw [hn, hh, hw]
  split <;> simp only at hl <;> omega

/-- A waiter posts the handshake. -/
theorem Ledger.shake (hl : Ledger c r h o) (hn : c'.nwait = c.nwait) (hs : c'.sleep = c.sleep)
    (hh : c'.handshake = c.handshake + 1) (hw : h' + 1 = h) : Ledger c' r h' o := by
  unfold Ledger at hl ⊢
  rw [hn, hs, hh]
  split <;> simp only at hl <;> omega

/-! ## A step -/

/-- A thread outside moves. -/
theorem Inv.outer (hi : Inv s) (ht : inside (s.pc t) = false) (ho : inside o = false) (hlock : c'.lock = s.cv.lock)
    (hl : ∀ o', Ledger s.cv (tally s.pc registered) (tally s.pc shaking) o' → Ledger c'
      (tally (Function.update s.pc t o) registered) (tally (Function.update s.pc t o) shaking) o') :
    Inv ⟨c', Function.update s.pc t o, holds⟩ := by
  have hcount := tally_update s.pc inside t o
  rw [ht, ho] at hcount
  refine ⟨?_, fun o' hc => hl o' (hi.current o' ?_)⟩
  · show c'.lock + tally (Function.update s.pc t o) inside = 1
    rw [hlock, ← hi.lock]
    simpa using hcount
  · rcases hc with ⟨rfl, h1⟩ | ⟨u, hu, hin⟩
    · exact Or.inl ⟨rfl, hlock.symm.trans h1⟩
    · refine Or.inr ⟨u, ?_, hin⟩
      have hut : u ≠ t := by
        rintro rfl
        replace hu : Function.update s.pc u o u = o' := hu
        rw [Function.update_self] at hu
        rw [← hu, ho] at hin
        cases hin
      rwa [← Function.update_of_ne hut o s.pc]

/-- A thread comes inside, or goes on inside. -/
theorem Inv.inner (hi : Inv s) (ho : inside o = true) (hlock : c'.lock + 1 = s.cv.lock + (inside (s.pc t)).toNat)
    (hl : Ledger c' (tally (Function.update s.pc t o) registered) (tally (Function.update s.pc t o) shaking) o) :
    Inv ⟨c', Function.update s.pc t o, holds⟩ := by
  have hcount := tally_update s.pc inside t o
  have hinv := hi.lock
  rw [ho, Bool.toNat_true] at hcount
  have hone : c'.lock + tally (Function.update s.pc t o) inside = 1 := by omega
  refine ⟨hone, fun o' hc => ?_⟩
  have hself : inside (Function.update s.pc t o t) = true := by rw [Function.update_self, ho]
  have hpos := tally_pos_of (f := Function.update s.pc t o) hself
  rcases hc with ⟨-, h1⟩ | ⟨u, rfl, hin⟩
  · replace h1 : c'.lock = 1 := h1
    omega
  · obtain rfl : u = t := tally_unique (f := Function.update s.pc t o) (by omega) hin hself
    show Ledger c' _ _ (Function.update s.pc u o u)
    rwa [Function.update_self]

/-- The thread inside leaves. -/
theorem Inv.leave (hi : Inv s) (ht : inside (s.pc t) = true) (ho : inside o = false) (hlock : c'.lock = s.cv.lock + 1)
    (hl : Ledger c' (tally (Function.update s.pc t o) registered) (tally (Function.update s.pc t o) shaking) none) :
    Inv ⟨c', Function.update s.pc t o, holds⟩ := by
  have hcount := tally_update s.pc inside t o
  have hinv := hi.lock
  rw [ht, ho, Bool.toNat_true, Bool.toNat_false] at hcount
  have hone : c'.lock + tally (Function.update s.pc t o) inside = 1 := by omega
  refine ⟨hone, fun o' hc => ?_⟩
  rcases hc with ⟨rfl, -⟩ | ⟨u, hu, hin⟩
  · exact hl
  · replace hu : Function.update s.pc t o u = o' := hu
    rw [← hu] at hin
    have hpos := tally_pos_of hin
    omega

omit [DecidableEq τ] in
/-- The ledger of the thread inside. -/
theorem Inv.at (hi : Inv s) (hpc : s.pc t = some l) (hin : inside (some l) = true) :
    Ledger s.cv (tally s.pc registered) (tally s.pc shaking) (some l) := hi.current _ (Or.inr ⟨t, hpc, hin⟩)

/-- A move that does not change what is counted. -/
theorem tally_move {p : Option Loc → Bool} (hp : p o = p (s.pc t)) :
    tally (Function.update s.pc t o) p = tally s.pc p := by
  have := tally_update s.pc p t o
  rw [hp] at this
  omega

/-- A step of the thread inside that stays inside. -/
theorem Inv.goesOn (hi : Inv s) (hpc : s.pc t = some l) (hin : inside (some l) = true) (ho : inside o = true)
    (hr : registered o = registered (some l)) (hh : shaking o = shaking (some l)) (hlock : c.lock = s.cv.lock)
    (hl : ∀ r h, Ledger s.cv r h (some l) → Ledger c r h o) : Inv ⟨c, Function.update s.pc t o, holds⟩ := by
  refine hi.inner ho (by rw [hlock, hpc, hin, Bool.toNat_true]) ?_
  rw [tally_move (hpc ▸ hr), tally_move (hpc ▸ hh)]
  exact hl _ _ (hi.at hpc hin)

/-- A thread takes `cv->lock`. -/
theorem Inv.comesIn {v : Nat} (hi : Inv s) (hpc : s.pc t = some l) (hin : inside (some l) = false)
    (ho : inside o = true) (hr : registered o = registered (some l)) (hh : shaking o = shaking (some l))
    (hv : semWait s.cv.lock = some v) (hl : ∀ r h, Ledger s.cv r h none → Ledger { s.cv with lock := v } r h o) :
    Inv ⟨{ s.cv with lock := v }, Function.update s.pc t o, holds⟩ := by
  have hfree := semWait_some hv
  have hone := hi.lock
  refine hi.inner ho (by rw [hpc, hin, Bool.toNat_false]; exact hfree.symm) ?_
  rw [tally_move (hpc ▸ hr), tally_move (hpc ▸ hh)]
  exact hl _ _ (hi.current none (Or.inl ⟨rfl, by omega⟩))

/-- The thread inside gives `cv->lock` back. -/
theorem Inv.goesAway (hi : Inv s) (hpc : s.pc t = some l) (hin : inside (some l) = true) (ho : inside o = false)
    (hr : registered o = registered (some l)) (hh : shaking o = shaking (some l)) (hlock : c.lock = s.cv.lock + 1)
    (hl : ∀ r h, Ledger s.cv r h (some l) → Ledger c r h none) : Inv ⟨c, Function.update s.pc t o, holds⟩ := by
  refine hi.leave (by rw [hpc, hin]) ho hlock ?_
  rw [tally_move (hpc ▸ hr), tally_move (hpc ▸ hh)]
  exact hl _ _ (hi.at hpc hin)

/-- A step outside that neither registers nor passes. -/
theorem Inv.goesOut (hi : Inv s) (hpc : s.pc t = some l) (hin : inside (some l) = false) (ho : inside o = false)
    (hr : registered o = registered (some l)) (hh : shaking o = shaking (some l)) (hlock : c.lock = s.cv.lock)
    (hn : c.nwait = s.cv.nwait) (hs : c.sleep = s.cv.sleep) (hk : c.handshake = s.cv.handshake) :
    Inv ⟨c, Function.update s.pc t o, holds⟩ := by
  refine hi.outer (by rw [hpc, hin]) ho hlock fun o' hl => ?_
  rw [tally_move (hpc ▸ hr), tally_move (hpc ▸ hh)]
  exact hl.congr hn hs hk

theorem exec_inv (hi : Inv s) (hpc : s.pc t = some l) (he : exec s.cv l = some (c, o)) :
    Inv ⟨c, Function.update s.pc t o, holds⟩ := by
  have hr := tally_update s.pc registered t o
  have hh := tally_update s.pc shaking t o
  rw [hpc] at hr hh
  cases l with
  | waitLock =>
    obtain ⟨v, hv, he⟩ := Option.map_eq_some_iff.1 he
    cases he
    exact hi.comesIn hpc rfl rfl rfl rfl hv fun r h hl => hl
  | waitInc =>
    cases he
    have hl := hi.at hpc rfl
    simp only [Ledger, registered, shaking, Bool.toNat_false, Bool.toNat_true] at hl hr hh
    refine hi.inner rfl (by rw [hpc]; rfl) ?_
    simp only [Ledger]
    omega
  | waitUnlock =>
    cases he
    exact hi.goesAway hpc rfl rfl rfl rfl rfl fun r h hl => hl
  | waitRelease =>
    cases he
    exact hi.goesOut hpc rfl rfl rfl rfl rfl rfl rfl rfl
  | waitSleep =>
    obtain ⟨v, hv, he⟩ := Option.map_eq_some_iff.1 he
    cases he
    simp only [registered, shaking, Bool.toNat_false, Bool.toNat_true] at hr hh
    exact hi.outer (by rw [hpc]; rfl) rfl rfl fun o' hl => hl.pass rfl (semWait_some hv) rfl (by omega) (by omega)
  | waitShake =>
    cases he
    simp only [shaking, Bool.toNat_false, Bool.toNat_true] at hh
    refine hi.outer (by rw [hpc]; rfl) rfl rfl fun o' hl => ?_
    have hreg : registered (some .waitAcquire) = registered (s.pc t) := by rw [hpc]; rfl
    rw [tally_move hreg]
    exact hl.shake rfl rfl rfl (by omega)
  | waitAcquire =>
    obtain ⟨v, hv, he⟩ := Option.map_eq_some_iff.1 he
    cases he
    exact hi.goesOut hpc rfl rfl rfl rfl rfl rfl rfl rfl
  | sigLock =>
    obtain ⟨v, hv, he⟩ := Option.map_eq_some_iff.1 he
    cases he
    exact hi.comesIn hpc rfl rfl rfl rfl hv fun r h hl => hl
  | sigTest =>
    cases he
    by_cases hn : 0 < s.cv.nwait
    · rw [if_pos hn]
      refine hi.goesOn hpc rfl rfl rfl rfl rfl fun r h hl => ?_
      simp only [Ledger] at hl ⊢
      omega
    · rw [if_neg hn]
      exact hi.goesOn hpc rfl rfl rfl rfl rfl fun r h hl => hl
  | sigDec =>
    cases he
    refine hi.goesOn hpc rfl rfl rfl rfl rfl fun r h hl => ?_
    simp only [Ledger] at hl ⊢
    omega
  | sigPost =>
    cases he
    refine hi.goesOn hpc rfl rfl rfl rfl rfl fun r h hl => ?_
    simp only [Ledger, semPost] at hl ⊢
    omega
  | sigShake =>
    obtain ⟨v, hv, he⟩ := Option.map_eq_some_iff.1 he
    cases he
    have hv := semWait_some hv
    refine hi.goesOn hpc rfl rfl rfl rfl rfl fun r h hl => ?_
    simp only [Ledger] at hl ⊢
    omega
  | sigUnlock =>
    cases he
    exact hi.goesAway hpc rfl rfl rfl rfl rfl fun r h hl => hl
  | brLock =>
    obtain ⟨v, hv, he⟩ := Option.map_eq_some_iff.1 he
    cases he
    refine hi.comesIn hpc rfl rfl rfl rfl hv fun r h hl => ?_
    simp only [Ledger] at hl ⊢
    omega
  | brTest i =>
    cases he
    by_cases hn : (i : Int) < s.cv.nwait
    · rw [if_pos hn]
      refine hi.goesOn hpc rfl rfl rfl rfl rfl fun r h hl => ?_
      simp only [Ledger] at hl ⊢
      omega
    · rw [if_neg hn]
      refine hi.goesOn hpc rfl rfl rfl rfl rfl fun r h hl => ?_
      simp only [Ledger] at hl ⊢
      omega
  | brPost i =>
    cases he
    refine hi.goesOn hpc rfl rfl rfl rfl rfl fun r h hl => ?_
    simp only [Ledger, semPost] at hl ⊢
    omega
  | brShake i =>
    obtain ⟨v, hv, he⟩ := Option.map_eq_some_iff.1 he
    cases he
    have hv := semWait_some hv
    refine hi.goesOn hpc rfl rfl rfl rfl rfl fun r h hl => ?_
    simp only [Ledger] at hl ⊢
    omega
  | brClear =>
    cases he
    exact hi.goesOn hpc rfl rfl rfl rfl rfl fun r h hl => ⟨hl.1, rfl, hl.2⟩
  | brUnlock =>
    cases he
    refine hi.goesAway hpc rfl rfl rfl rfl rfl fun r h hl => ?_
    simp only [Ledger] at hl ⊢
    omega

omit [Fintype τ] in
/-- What a step can be. -/
theorem step_cases (hs : step s (t, a) = some s') :
    (a = .lock ∧ s.pc t = none ∧ ∃ v, s.cv.mutex = v + 1 ∧
    s' = ⟨{ s.cv with mutex := v }, s.pc, Function.update s.holds t true⟩) ∨
    (a = .unlock ∧ s.pc t = none ∧ s.holds t = true ∧
      s' = ⟨{ s.cv with mutex := s.cv.mutex + 1 }, s.pc, Function.update s.holds t false⟩) ∨
    (a = .wait ∧ s.pc t = none ∧ s.holds t = true ∧ s' = { s with pc := Function.update s.pc t (some .waitLock) }) ∨
    (a = .signal ∧ s.pc t = none ∧ s' = { s with pc := Function.update s.pc t (some .sigLock) }) ∨
    (a = .broadcast ∧ s.pc t = none ∧ s' = { s with pc := Function.update s.pc t (some .brLock) }) ∨
    ∃ l c o, a = .exec l ∧ s.pc t = some l ∧ exec s.cv l = some (c, o) ∧ s' = ⟨c, Function.update s.pc t o,
      holdsAfter s.holds t l⟩ := by
  cases a <;> simp only [step] at hs <;> split at hs <;> try cases hs
  case lock.isTrue hpc =>
    obtain ⟨v, hv, he⟩ := Option.map_eq_some_iff.1 hs
    exact Or.inl ⟨rfl, hpc, v, semWait_some hv, he.symm⟩
  case unlock.isTrue hpc => exact Or.inr (Or.inl ⟨rfl, hpc.1, hpc.2, rfl⟩)
  case wait.isTrue hpc => exact Or.inr (Or.inr (Or.inl ⟨rfl, hpc.1, hpc.2, rfl⟩))
  case signal.isTrue hpc => exact Or.inr (Or.inr (Or.inr (Or.inl ⟨rfl, hpc, rfl⟩)))
  case broadcast.isTrue hpc => exact Or.inr (Or.inr (Or.inr (Or.inr (Or.inl ⟨rfl, hpc, rfl⟩))))
  case exec.isTrue l hpc =>
    obtain ⟨⟨c, o⟩, he, rfl⟩ := Option.map_eq_some_iff.1 hs
    exact Or.inr (Or.inr (Or.inr (Or.inr (Or.inr ⟨l, c, o, rfl, hpc, he, rfl⟩))))

/-- A thread calls one of the functions. -/
theorem Inv.call (hi : Inv s) (hpc : s.pc t = none) (ho : inside o = false) (hr : registered o = false)
    (hh : shaking o = false) :
    Inv { s with pc := Function.update s.pc t o } := by
  refine hi.outer (by rw [hpc]; rfl) ho rfl fun o' hl => ?_
  rw [tally_move (by rw [hpc, hr]; rfl), tally_move (by rw [hpc, hh]; rfl)]
  exact hl

theorem step_inv (hi : Inv s) (hs : step s (t, a) = some s') : Inv s' := by
  rcases step_cases hs with ⟨-, -, v, -, rfl⟩ | ⟨-, -, -, rfl⟩ | ⟨-, hpc, -, rfl⟩ | ⟨-, hpc, rfl⟩ | ⟨-, hpc, rfl⟩ |
    ⟨l, c, o, -, hpc, he, rfl⟩
  · exact ⟨hi.lock, fun o ho => (hi.current o ho).congr rfl rfl rfl⟩
  · exact ⟨hi.lock, fun o ho => (hi.current o ho).congr rfl rfl rfl⟩
  · exact hi.call hpc rfl rfl rfl
  · exact hi.call hpc rfl rfl rfl
  · exact hi.call hpc rfl rfl rfl
  · exact exec_inv hi hpc he

theorem run_inv {es : List (τ × Act)} (hr : Run Step (start : State τ) es s) : Inv s :=
  hr.invariant (fun _ _ _ hi hs => step_inv hi hs) start_inv

/-! ## Who is woken -/

/-- The threads that pass `sem_wait(&cv->sleep)`. -/
def passes (es : List (τ × Act)) : List τ := es.filterMap fun e => if e.2 = .exec .waitSleep then some e.1 else none

/-- In a signal or a broadcast that has taken `cv->lock`. -/
def waking : Option Loc → Bool
  | some .sigTest | some .sigDec | some .sigPost | some .sigShake | some .sigUnlock
  | some (.brTest _) | some (.brPost _) | some (.brShake _) | some .brClear | some .brUnlock => true
  | _ => false

/-- How far a signal has got, which found `n` registered threads. -/
def Signalled (n : Nat) (c : Cv) : Option Loc → Prop
  | some .sigTest => c.nwait = n
  | some .sigDec => c.nwait = n ∧ 0 < n
  | some .sigPost => c.nwait + 1 = n ∧ 0 < n
  | some .sigShake => c.nwait + 1 = n ∧ 0 < n
  | some .sigUnlock => c.nwait = n - min 1 n
  | _ => True

omit [Fintype τ] [DecidableEq τ] in
@[simp] theorem passes_append (es fs : List (τ × Act)) : passes (es ++ fs) = passes es ++ passes fs :=
  List.filterMap_append

omit [Fintype τ] [DecidableEq τ] in
theorem passes_pass (t : τ) : passes [(t, .exec .waitSleep)] = [t] := rfl

omit [Fintype τ] [DecidableEq τ] in
theorem passes_none (h : a ≠ .exec .waitSleep) : passes [(t, a)] = [] := by
  simp [passes, h]

theorem inside_of_waking (h : waking o = true) : inside o = true := by
  unfold waking at h
  split at h <;> first | rfl | cases h

/-- A signal or broadcast `n` threads of which were registered when it took `cv->lock`: those that passed since
are some of them, and the others still wait. -/
structure Woken (was : τ → Bool) (n : Nat) (t : τ) (fs : List (τ × Act)) (s : State τ) : Prop where
  inv : Inv s
  waking : waking (s.pc t) = true
  nodup : (passes fs).Nodup
  split : ∀ u, was u = true ↔ u ∈ passes fs ∨ registered (s.pc u) = true
  apart : ∀ u ∈ passes fs, registered (s.pc u) = false
  count : (passes fs).length + tally s.pc registered = n
  signalled : Signalled n s.cv (s.pc t)

variable {was : τ → Bool} {n : Nat} {fs : List (τ × Act)}

theorem Signalled.exec (h : Signalled n c (some l)) (hw : waking (some l) = true) (he : exec c l = some (c', o))
    (h1 : l ≠ .sigUnlock) (h2 : l ≠ .brUnlock) :
    Signalled n c' o ∧ waking o = true ∧ registered o = false ∧ registered (some l) = false := by
  cases l with
  | sigTest =>
    cases he
    by_cases hn : 0 < c.nwait
    · rw [if_pos hn]
      refine ⟨?_, rfl, rfl, rfl⟩
      simp only [Signalled] at h ⊢
      omega
    · rw [if_neg hn]
      refine ⟨?_, rfl, rfl, rfl⟩
      simp only [Signalled] at h ⊢
      omega
  | sigDec =>
    cases he
    refine ⟨?_, rfl, rfl, rfl⟩
    simp only [Signalled] at h ⊢
    omega
  | sigPost =>
    cases he
    exact ⟨h, rfl, rfl, rfl⟩
  | sigShake =>
    obtain ⟨v, hv, he⟩ := Option.map_eq_some_iff.1 he
    cases he
    refine ⟨?_, rfl, rfl, rfl⟩
    simp only [Signalled] at h ⊢
    omega
  | sigUnlock => exact absurd rfl h1
  | brTest i =>
    cases he
    by_cases hn : (i : Int) < c.nwait
    · rw [if_pos hn]
      exact ⟨trivial, rfl, rfl, rfl⟩
    · rw [if_neg hn]
      exact ⟨trivial, rfl, rfl, rfl⟩
  | brPost i =>
    cases he
    exact ⟨trivial, rfl, rfl, rfl⟩
  | brShake i =>
    obtain ⟨v, hv, he⟩ := Option.map_eq_some_iff.1 he
    cases he
    exact ⟨trivial, rfl, rfl, rfl⟩
  | brClear =>
    cases he
    exact ⟨trivial, rfl, rfl, rfl⟩
  | brUnlock => exact absurd rfl h2
  | _ => cases hw

omit [Fintype τ] [DecidableEq τ] in
theorem Signalled.congr {pc : Option Loc} (h : Signalled n c pc) (hn : c'.nwait = c.nwait) : Signalled n c' pc := by
  unfold Signalled at h ⊢
  rw [hn]
  exact h

/-- A statement outside leaves `nwait` as it is, and registers nobody. -/
theorem exec_outside (he : exec c l = some (c', o)) (hin : inside (some l) = false) :
    c'.nwait = c.nwait ∧ (l ≠ .waitSleep → registered o = registered (some l)) := by
  cases l with
  | waitRelease | waitShake =>
    cases he
    exact ⟨rfl, fun _ => rfl⟩
  | waitSleep =>
    obtain ⟨v, hv, he⟩ := Option.map_eq_some_iff.1 he
    cases he
    exact ⟨rfl, fun h => absurd rfl h⟩
  | waitLock | waitAcquire | sigLock | brLock =>
    obtain ⟨v, hv, he⟩ := Option.map_eq_some_iff.1 he
    cases he
    exact ⟨rfl, fun _ => rfl⟩
  | _ => cases hin

omit [Fintype τ] in
theorem registered_move (hr : registered o = registered (s.pc u)) (v : τ) :
    registered (Function.update s.pc u o v) = registered (s.pc v) := by
  by_cases hv : v = u
  · subst hv
    rw [Function.update_self, hr]
  · rw [Function.update_of_ne hv]

omit [DecidableEq τ] in
/-- A step in which nobody passes. -/
theorem Woken.same (h : Woken was n t fs s) (hi : Inv s') (ha : a ≠ .exec .waitSleep)
    (hr : ∀ v, registered (s'.pc v) = registered (s.pc v)) (hw : Condition.waking (s'.pc t) = true)
    (hs : Signalled n s'.cv (s'.pc t)) : Woken was n t (fs ++ [(u, a)]) s' := by
  have hp : passes (fs ++ [(u, a)]) = passes fs := by rw [passes_append, passes_none ha, List.append_nil]
  have ht : tally s'.pc registered = tally s.pc registered := by
    unfold tally
    simp only [hr]
  refine ⟨hi, hw, hp ▸ h.nodup, fun v => ?_, fun v hv => ?_, by rw [hp, ht, h.count], hs⟩
  · rw [hp, hr]
    exact h.split v
  · rw [hr]
    exact h.apart v (hp ▸ hv)

/-- A thread other than the one that wakes passes. -/
theorem Woken.pass (h : Woken was n t fs s) (hi : Inv s') (hut : u ≠ t) (hpc : s.pc u = some .waitSleep)
    (hpc' : s'.pc = Function.update s.pc u (some .waitShake)) (hn : s'.cv.nwait = s.cv.nwait) :
    Woken was n t (fs ++ [(u, .exec .waitSleep)]) s' := by
  have hp : passes (fs ++ [(u, .exec .waitSleep)]) = passes fs ++ [u] := by rw [passes_append, passes_pass]
  have hu : registered (s.pc u) = true := by rw [hpc]; rfl
  have hu' : registered (s'.pc u) = false := by rw [hpc', Function.update_self]; rfl
  have hrest : ∀ v, v ≠ u → s'.pc v = s.pc v := fun v hv => by rw [hpc', Function.update_of_ne hv]
  have hnot : u ∉ passes fs := fun hc => by rw [h.apart u hc] at hu; cases hu
  have hcount := tally_update s.pc registered u (some .waitShake)
  rw [hu, ← hpc'] at hcount
  refine ⟨hi, by rw [hrest t hut.symm]; exact h.waking, ?_, fun v => ?_, fun v hv => ?_, ?_,
    by rw [hrest t hut.symm]; exact h.signalled.congr hn⟩
  · rw [hp]
    exact h.nodup.append (List.nodup_singleton u) (by simpa using hnot)
  · rw [hp, h.split v, List.mem_append, List.mem_singleton]
    by_cases hv : v = u
    · subst hv
      exact iff_of_true (Or.inr hu) (Or.inl (Or.inr rfl))
    · rw [hrest v hv]
      simp only [hv, or_false]
  · rw [hp, List.mem_append, List.mem_singleton] at hv
    rcases hv with hv | rfl
    · have hvu : v ≠ u := fun hc => hnot (hc ▸ hv)
      rw [hrest v hvu]
      exact h.apart v hv
    · exact hu'
  · have := h.count
    rw [hp, List.length_append, List.length_singleton]
    simp only [registered, Bool.toNat_true, Bool.toNat_false] at hcount
    omega

theorem Woken.step (h : Woken was n t fs s) (hs : step s (u, a) = some s') (h1 : (u, a) ≠ (t, .exec .sigUnlock))
    (h2 : (u, a) ≠ (t, .exec .brUnlock)) : Woken was n t (fs ++ [(u, a)]) s' := by
  have hi := step_inv h.inv hs
  have hnone : s.pc u = none → u ≠ t := fun hpc he => by
    have := h.waking
    rw [← he, hpc] at this
    cases this
  -- a thread that calls a function
  have hcall : ∀ o, s.pc u = none → registered o = false → a ≠ .exec .waitSleep →
      s' = { s with pc := Function.update s.pc u o } →
      Woken was n t (fs ++ [(u, a)]) s' := fun o hpc hr ha he => by
    have ht : s'.pc t = s.pc t := by rw [he]; exact Function.update_of_ne (hnone hpc).symm _ _
    refine h.same hi ha (fun v => ?_) (ht ▸ h.waking) (by rw [ht]; exact h.signalled.congr (by rw [he]))
    rw [he]
    exact registered_move (by rw [hr, hpc]; rfl) v
  rcases step_cases hs with ⟨rfl, -, v, -, rfl⟩ | ⟨rfl, -, -, rfl⟩ | ⟨rfl, hpc, -, he⟩ |
    ⟨rfl, hpc, he⟩ | ⟨rfl, hpc, he⟩ |
    ⟨l, c, o, rfl, hpc, he, rfl⟩
  · exact h.same hi (by decide) (fun _ => rfl) h.waking h.signalled
  · exact h.same hi (by decide) (fun _ => rfl) h.waking h.signalled
  · exact hcall _ hpc rfl (by decide) he
  · exact hcall _ hpc rfl (by decide) he
  · exact hcall _ hpc rfl (by decide) he
  · by_cases hut : u = t
    · subst hut
      have hw := h.waking
      have hsig := h.signalled
      rw [hpc] at hw hsig
      obtain ⟨k1, k2, k3, k4⟩ := hsig.exec hw he (fun hc => h1 (hc ▸ rfl)) fun hc => h2 (hc ▸ rfl)
      refine h.same hi (fun hc => ?_) (registered_move (by rw [hpc, k3, k4])) ?_ ?_
      · cases hc
        cases hw
      · show Condition.waking (Function.update s.pc u o u) = true
        rwa [Function.update_self]
      · show Signalled n c (Function.update s.pc u o u)
        rwa [Function.update_self]
    · have hout : inside (some l) = false := by
        by_contra hc
        have hone := h.inv.lock
        exact hut (tally_unique (f := s.pc) (by omega) (by rw [hpc]; simpa using hc) (inside_of_waking h.waking))
      obtain ⟨hn, hr⟩ := exec_outside he hout
      by_cases hl : l = .waitSleep
      · subst hl
        obtain ⟨v, hv, he⟩ := Option.map_eq_some_iff.1 he
        cases he
        exact h.pass hi hut hpc rfl rfl
      · have ht : Function.update s.pc u o t = s.pc t := Function.update_of_ne (Ne.symm hut) _ _
        refine h.same hi (fun hc => hl (Act.exec.inj hc)) (registered_move (by rw [hpc, hr hl])) ?_ ?_
        · show Condition.waking (Function.update s.pc u o t) = true
          rw [ht]
          exact h.waking
        · show Signalled n c (Function.update s.pc u o t)
          rw [ht]
          exact h.signalled.congr hn

/-- A signal or a broadcast has taken `cv->lock`. -/
theorem Inv.woken (hi : Inv s) (hl : l = .sigLock ∨ l = .brLock) (hs : step s (t, .exec l) = some s') :
    Woken (fun u => registered (s.pc u)) (tally s.pc registered) t [] s' := by
  have hi' := step_inv hi hs
  rcases step_cases hs with ⟨h, -⟩ | ⟨h, -⟩ | ⟨h, -⟩ | ⟨h, -⟩ | ⟨h, -⟩ | ⟨l', c, o, h, hpc, he, rfl⟩
  case inr.inr.inr.inr.inr =>
    cases h
    have hout : inside (some l) = false ∧ l ≠ .waitSleep := by rcases hl with rfl | rfl <;> decide
    obtain ⟨hn, hr⟩ := exec_outside he hout.1
    have hfree : s.cv.lock = 1 := by
      have := hi.lock
      have hv : ∃ v, semWait s.cv.lock = some v := by
        rcases hl with rfl | rfl <;> obtain ⟨v, hv, -⟩ := Option.map_eq_some_iff.1 he <;> exact ⟨v, hv⟩
      obtain ⟨v, hv⟩ := hv
      have := semWait_some hv
      omega
    have hnwait : s.cv.nwait = tally s.pc registered := (hi.current none (Or.inl ⟨rfl, hfree⟩)).1
    have hreg : registered o = registered (s.pc t) := by rw [hpc, hr hout.2]
    have hself : Function.update s.pc t o t = o := Function.update_self ..
    refine ⟨hi', ?_, List.nodup_nil, fun u => ?_, by simp [passes], ?_, ?_⟩
    · show waking (Function.update s.pc t o t) = true
      rw [hself]
      rcases hl with rfl | rfl <;> obtain ⟨v, hv, he⟩ := Option.map_eq_some_iff.1 he <;> cases he <;> rfl
    · show _ ↔ u ∈ passes [] ∨ registered (Function.update s.pc t o u) = true
      rw [registered_move hreg]
      simp [passes]
    · show (passes ([] : List (τ × Act))).length + tally (Function.update s.pc t o) registered = _
      rw [tally_move hreg]
      exact Nat.zero_add _
    · show Signalled _ c (Function.update s.pc t o t)
      rw [hself]
      rcases hl with rfl | rfl <;> obtain ⟨v, hv, he⟩ := Option.map_eq_some_iff.1 he <;> cases he
      · exact hnwait
      · trivial
  all_goals cases h

/-- A run during which a signal or broadcast does not end. -/
theorem Woken.run (h : Woken was n t [] s) (hr : Run Step s fs s') (h1 : (t, .exec .sigUnlock) ∉ fs)
    (h2 : (t, .exec .brUnlock) ∉ fs) :
    Woken was n t fs s' := by
  induction hr with
  | nil => exact h
  | snoc _ hs ih =>
    refine (ih (fun hc => h1 (List.mem_append_left _ hc)) fun hc => h2 (List.mem_append_left _ hc)).step hs
      (fun hc => h1 ?_) fun hc => h2 ?_
    · exact List.mem_append_right _ (List.mem_singleton.2 hc.symm)
    · exact List.mem_append_right _ (List.mem_singleton.2 hc.symm)

/-- A wake-up is taken while somebody waits for the handshake. -/
theorem Inv.waked (hi : Inv s) (hs : step s (t, .exec .waitSleep) = some s') :
    ∃ u, s.pc u = some .sigShake ∨ ∃ i, s.pc u = some (.brShake i) := by
  obtain ⟨v, hv⟩ : ∃ v, semWait s.cv.sleep = some v := by
    rcases step_cases hs with ⟨h, -⟩ | ⟨h, -⟩ | ⟨h, -⟩ | ⟨h, -⟩ | ⟨h, -⟩ | ⟨l, c, o, h, -, he, -⟩
    case inr.inr.inr.inr.inr =>
      cases h
      obtain ⟨v, hv, -⟩ := Option.map_eq_some_iff.1 he
      exact ⟨v, hv⟩
    all_goals cases h
  have hsleep := semWait_some hv
  have hlock := hi.lock
  by_cases hfree : s.cv.lock = 1
  · have hl := hi.current none (Or.inl ⟨rfl, hfree⟩)
    simp only [Ledger] at hl
    omega
  · obtain ⟨u, hu⟩ := tally_pos.1 (show 0 < tally s.pc inside by omega)
    have hl := hi.current _ (Or.inr ⟨u, rfl, hu⟩)
    refine ⟨u, ?_⟩
    unfold Ledger at hl
    split at hl <;> first | omega | skip
    · next hpc => exact Or.inl hpc
    · next i hpc => exact Or.inr ⟨i, hpc⟩

/-- In every state of every run: while `cv->lock` is free, `nwait` counts the registered threads and no wake-up is
left over; a wake-up is taken only while the signal or broadcast it is of waits for it; and whom a signal or a
broadcast wakes was registered when it took `cv->lock`: in the end all of them, or one if there is one. -/
theorem wakes_registered {es : List (τ × Act)} (hr : Run Step (start : State τ) es s) :
    (s.cv.lock = 1 → s.cv.nwait = tally s.pc registered ∧ s.cv.sleep = 0 ∧ s.cv.handshake = 0) ∧
    (∀ u s', step s (u, .exec .waitSleep) = some s' → ∃ t, s.pc t = some .sigShake ∨ ∃ i, s.pc t = some (.brShake i)) ∧
    ∀ t l s₁ fs s', l = .sigLock ∨ l = .brLock → step s (t, .exec l) = some s₁ → Run Step s₁ fs s' →
      (t, .exec .sigUnlock) ∉ fs → (t, .exec .brUnlock) ∉ fs →
      (passes fs).Nodup ∧ (∀ u ∈ passes fs, registered (s.pc u) = true) ∧
      (s'.pc t = some .brUnlock → ∀ u, registered (s.pc u) = true → u ∈ passes fs) ∧
      (s'.pc t = some .sigUnlock → (passes fs).length = min 1 (tally s.pc registered)) := by
  have hi := run_inv hr
  refine ⟨fun hfree => ?_, fun u s' hs => hi.waked hs, fun t l s₁ fs s' hl hs hr' h1 h2 => ?_⟩
  · obtain ⟨h1, h2, h3, -⟩ := hi.current none (Or.inl ⟨rfl, hfree⟩)
    exact ⟨h1, h2, h3⟩
  · have h := (hi.woken hl hs).run hr' h1 h2
    have hledger := h.inv.current _ (Or.inr ⟨t, rfl, inside_of_waking h.waking⟩)
    refine ⟨h.nodup, fun u hu => (h.split u).2 (Or.inl hu), fun hpc u hu => ?_, fun hpc => ?_⟩
    · rw [hpc] at hledger
      exact ((h.split u).1 hu).resolve_right fun hc => by rw [tally_none hledger.1 u] at hc; cases hc
    · have hsig := h.signalled
      have hcount := h.count
      rw [hpc] at hledger hsig
      simp only [Ledger, Signalled] at hledger hsig
      omega

/-- Thread 1 broadcasts while thread 0 is registered and has not yet come to sleep. -/
theorem wakes_registered_demo : ∃ s s₁ s' : State (Fin 2), Run Step start [(0, .lock), (0, .wait), (0, .exec .waitLock),
      (0, .exec .waitInc), (0, .exec .waitUnlock), (0, .exec .waitRelease), (1, .broadcast)] s ∧
    step s (1, .exec .brLock) = some s₁ ∧ Run Step s₁ [(1, .exec (.brTest 0)), (1, .exec (.brPost 0)),
      (0, .exec .waitSleep),
      (0, .exec .waitShake), (1, .exec (.brShake 0)), (1, .exec (.brTest 1)), (1, .exec .brClear)] s' ∧
    s'.pc 1 = some .brUnlock ∧ ∀ u, registered (s.pc u) = true → u ∈ ([0] : List (Fin 2)) := by
  have hev : (([(0, .lock), (0, .wait), (0, .exec .waitLock), (0, .exec .waitInc), (0, .exec .waitUnlock),
      (0, .exec .waitRelease), (1, .broadcast)] : List (Fin 2 × Act)).foldlM step start).any (fun s =>
        (step s (1, .exec .brLock)).any fun s₁ => (([(1, .exec (.brTest 0)), (1, .exec (.brPost 0)),
          (0, .exec .waitSleep), (0, .exec .waitShake), (1, .exec (.brShake 0)), (1, .exec (.brTest 1)),
          (1, .exec .brClear)] : List (Fin 2 × Act)).foldlM step s₁).any
            fun s' => decide (s'.pc 1 = some .brUnlock)) = true := by decide
  obtain ⟨s, hs, hev⟩ := (Option.any_eq_true _ _).1 hev
  obtain ⟨s₁, hs₁, hev⟩ := (Option.any_eq_true _ _).1 hev
  obtain ⟨s', hs', hev⟩ := (Option.any_eq_true _ _).1 hev
  have hend := of_decide_eq_true hev
  have hr : Run Step start _ s := Run.of_foldlM hs
  have hr' : Run Step s₁ _ s' := Run.of_foldlM hs'
  refine ⟨s, s₁, s', hr, hs₁, hr', hend, ?_⟩
  exact ((wakes_registered hr).2.2 1 .brLock s₁ _ s' (Or.inr rfl) hs₁ hr' (by decide) (by decide)).2.2.1 hend

end TinyOS.Condition
