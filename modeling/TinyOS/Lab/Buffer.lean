/-
The producers and consumers of lab/lab8/condition_sem.c, on the condition variable: a thread that waits does so
for a reason that still holds, and one that has given the reason up is about to wake it.
-/
import TinyOS.Lab.Condition

namespace TinyOS.Buffer

open TinyOS.Lib TinyOS.Condition

/-! ## The program -/

inductive Role where
  | producer
  | consumer
  deriving DecidableEq

/-- `PRODUCER_COND` and `CONSUMER_COND`. -/
def Cond (bufSize : Int) : Role → Int → Prop
  | .producer, cnt => cnt < bufSize
  | .consumer, cnt => 0 < cnt

instance (bufSize : Int) (r : Role) (cnt : Int) : Decidable (Cond bufSize r cnt) := by
  cases r <;> unfold Cond <;> infer_instance

/-- `cnt++` of a producer, `cnt--` of a consumer. -/
def change : Role → Int → Int
  | .producer, cnt => cnt + 1
  | .consumer, cnt => cnt - 1

/-- Where a thread is in its loop: at `produce_one` or `consume_one`, at the lock, at the condition of the inner
loop, in a function of the condition variable, at the assertion, at the change of `cnt`, at the unlock. -/
inductive Place where
  | other
  | lock
  | test
  | cv (l : Loc)
  | check
  | change
  | unlock
  deriving DecidableEq

/-- Where a thread goes on after the last statement of a function of the condition variable. -/
def back : Loc → Place
  | .waitAcquire => .test
  | _ => .unlock

structure State (τ : Type) where
  cv : Cv
  cnt : Int
  place : τ → Place

variable {τ : Type} [Fintype τ] [DecidableEq τ]

def State.goto (s : State τ) (t : τ) (p : Place) : State τ := { s with place := Function.update s.place t p }

/-- The next statement of thread `t`, at which it may be blocked, or fail an assertion. -/
def step (bufSize : Int) (role : τ → Role) (s : State τ) (t : τ) : Option (State τ) :=
  match s.place t with
  | .other => some (s.goto t .lock)
  | .lock => (semWait s.cv.mutex).map fun v => { s.goto t .test with cv := { s.cv with mutex := v } }
  | .test => some (s.goto t (if Cond bufSize (role t) s.cnt then .check else .cv .waitLock))
  | .cv l => (exec s.cv l).map fun r => { s.goto t (r.2.elim (back l) .cv) with cv := r.1 }
  | .check => if Cond bufSize (role t) s.cnt then some (s.goto t .change) else none
  | .change => some { s.goto t (.cv .brLock) with cnt := change (role t) s.cnt }
  | .unlock => some { s.goto t .other with cv := { s.cv with mutex := semPost s.cv.mutex } }

/-- A step, given the thread and its place. -/
def stepAt (bufSize : Int) (role : τ → Role) (s : State τ) (e : τ × Place) : Option (State τ) :=
  if s.place e.1 = e.2 then step bufSize role s e.1 else none

def Step (bufSize : Int) (role : τ → Role) (s : State τ) (e : τ × Place) (s' : State τ) : Prop :=
  stepAt bufSize role s e = some s'

/-- A producer begins with `produce_one`, a consumer with the lock. -/
def start (role : τ → Role) : State τ := ⟨myCvInit, 0, fun t => if role t = .producer then .other else .lock⟩

/-- How many items the threads of a role have put into the buffer, or taken from it. -/
def items (role : τ → Role) (r : Role) (es : List (τ × Place)) : Nat := es.countP fun e => role e.1 = r ∧ e.2 = .change

/-! ## The condition variable below -/

/-- Between taking the mutex and giving it back, which a thread does in `my_cv_wait`, too. -/
def hasMutex : Place → Bool
  | .test | .check | .change | .unlock => true
  | .cv .waitLock | .cv .waitInc | .cv .waitUnlock | .cv .waitRelease => true
  | .cv .brLock | .cv (.brTest _) | .cv (.brPost _) | .cv (.brShake _) | .cv .brClear | .cv .brUnlock => true
  | _ => false

def loc : Place → Option Loc
  | .cv l => some l
  | _ => none

/-- The threads as users of the condition variable. -/
def view (s : State τ) : Condition.State τ := ⟨s.cv, loc ∘ s.place, hasMutex ∘ s.place⟩

/-- The functions that the threads call. -/
def called : Place → Bool
  | .cv .sigLock | .cv .sigTest | .cv .sigDec | .cv .sigPost | .cv .sigShake | .cv .sigUnlock => false
  | _ => true

variable {bufSize : Int} {role : τ → Role} {s s' : State τ} {t u : τ} {p : Place} {l : Loc} {c c' : Cv} {o : Option Loc}

omit [Fintype τ] in
theorem view_goto (c : Cv) (cnt : Int) : view ⟨c, cnt, Function.update s.place t p⟩ =
    ⟨c, Function.update (view s).pc t (loc p), Function.update (view s).holds t (hasMutex p)⟩ := by
  unfold view
  rw [Function.comp_update, Function.comp_update]

omit [Fintype τ] in
/-- A statement of the condition variable, and the mutex. -/
theorem exec_back (hc : called (.cv l) = true) (he : exec c l = some (c', o)) :
    called (o.elim (back l) .cv) = true ∧ loc (o.elim (back l) .cv) = o ∧
    c'.mutex + (hasMutex (o.elim (back l) .cv)).toNat = c.mutex + (hasMutex (.cv l)).toNat ∧
    ∀ holds : τ → Bool, holds t = hasMutex (.cv l) →
      holdsAfter holds t l = Function.update holds t (hasMutex (o.elim (back l) .cv)) := by
  have hsame : ∀ {b : Bool} (holds : τ → Bool), holds t = b → holds = Function.update holds t b := fun holds h => by
    rw [← h, Function.update_eq_self]
  cases l with
  | waitInc | waitUnlock | waitShake | brClear | brUnlock | brPost i =>
    cases he
    exact ⟨rfl, rfl, rfl, hsame⟩
  -- inside `wait` the mutex is given back, and below it is taken again
  | waitRelease =>
    cases he
    exact ⟨rfl, rfl, rfl, fun _ _ => rfl⟩
  | waitLock | waitSleep | brLock | brShake i =>
    obtain ⟨v, hv, he⟩ := Option.map_eq_some_iff.1 he
    cases he
    exact ⟨rfl, rfl, rfl, hsame⟩
  | waitAcquire =>
    obtain ⟨v, hv, he⟩ := Option.map_eq_some_iff.1 he
    cases he
    exact ⟨rfl, rfl, (semWait_some hv).symm, fun _ _ => rfl⟩
  | brTest i =>
    cases he
    by_cases hn : (i : Int) < c.nwait
    · rw [if_pos hn]
      exact ⟨rfl, rfl, rfl, hsame⟩
    · rw [if_neg hn]
      exact ⟨rfl, rfl, rfl, hsame⟩
  | _ => cases hc

omit [Fintype τ] in
/-- What a step can be. -/
theorem step_cases (hs : step bufSize role s t = some s') :
    (s.place t = .other ∧ s' = ⟨s.cv, s.cnt, Function.update s.place t .lock⟩) ∨
    (s.place t = .lock ∧ ∃ v, s.cv.mutex = v + 1 ∧
    s' = ⟨{ s.cv with mutex := v }, s.cnt, Function.update s.place t .test⟩) ∨
    (s.place t = .test ∧ Cond bufSize (role t) s.cnt ∧ s' = ⟨s.cv, s.cnt, Function.update s.place t .check⟩) ∨
    (s.place t = .test ∧ ¬ Cond bufSize (role t) s.cnt ∧
    s' = ⟨s.cv, s.cnt, Function.update s.place t (.cv .waitLock)⟩) ∨
    (∃ l c o, s.place t = .cv l ∧ exec s.cv l = some (c, o) ∧
    s' = ⟨c, s.cnt, Function.update s.place t (o.elim (back l) .cv)⟩) ∨
    (s.place t = .check ∧ Cond bufSize (role t) s.cnt ∧ s' = ⟨s.cv, s.cnt, Function.update s.place t .change⟩) ∨
    (s.place t = .change ∧ s' = ⟨s.cv, Buffer.change (role t) s.cnt, Function.update s.place t (.cv .brLock)⟩) ∨
    (s.place t = .unlock ∧ s' = ⟨{ s.cv with mutex := s.cv.mutex + 1 }, s.cnt, Function.update s.place t .other⟩) := by
  unfold step State.goto at hs
  cases hp : s.place t with
  | other =>
    simp only [hp] at hs
    exact Or.inl ⟨rfl, (Option.some.inj hs).symm⟩
  | lock =>
    simp only [hp] at hs
    obtain ⟨v, hv, he⟩ := Option.map_eq_some_iff.1 hs
    exact Or.inr (Or.inl ⟨rfl, v, semWait_some hv, he.symm⟩)
  | test =>
    simp only [hp] at hs
    by_cases hc : Cond bufSize (role t) s.cnt
    · rw [if_pos hc] at hs
      exact Or.inr (Or.inr (Or.inl ⟨rfl, hc, (Option.some.inj hs).symm⟩))
    · rw [if_neg hc] at hs
      exact Or.inr (Or.inr (Or.inr (Or.inl ⟨rfl, hc, (Option.some.inj hs).symm⟩)))
  | cv l =>
    simp only [hp] at hs
    obtain ⟨⟨c, o⟩, he, hs⟩ := Option.map_eq_some_iff.1 hs
    exact Or.inr (Or.inr (Or.inr (Or.inr (Or.inl ⟨l, c, o, rfl, he, hs.symm⟩))))
  | check =>
    simp only [hp] at hs
    split at hs
    · next hc => exact Or.inr (Or.inr (Or.inr (Or.inr (Or.inr (Or.inl ⟨rfl, hc, (Option.some.inj hs).symm⟩)))))
    · cases hs
  | change =>
    simp only [hp] at hs
    exact Or.inr (Or.inr (Or.inr (Or.inr (Or.inr (Or.inr (Or.inl ⟨rfl, (Option.some.inj hs).symm⟩))))))
  | unlock =>
    simp only [hp] at hs
    exact Or.inr (Or.inr (Or.inr (Or.inr (Or.inr (Or.inr (Or.inr ⟨rfl, (Option.some.inj hs).symm⟩))))))

omit [Fintype τ] in
theorem view_same {cnt : Int} (hl : loc p = loc (s.place t)) (hm : hasMutex p = hasMutex (s.place t)) :
    view ⟨s.cv, cnt, Function.update s.place t p⟩ = view s := by
  have hpc : Function.update (view s).pc t (loc (s.place t)) = (view s).pc := Function.update_eq_self ..
  have hholds : Function.update (view s).holds t (hasMutex (s.place t)) = (view s).holds := Function.update_eq_self ..
  rw [view_goto, hl, hm, hpc, hholds]
  rfl

omit [Fintype τ] in
/-- A step of the program is none of the condition variable and its mutex, or one. -/
theorem view_step (hc : called (s.place t) = true) (hs : step bufSize role s t = some s') :
    view s' = view s ∨ ∃ a, Condition.step (view s) (t, a) = some (view s') := by
  have hpc : (view s).pc t = loc (s.place t) := rfl
  have hholds : (view s).holds t = hasMutex (s.place t) := rfl
  have hupc : Function.update (view s).pc t (loc (s.place t)) = (view s).pc := Function.update_eq_self ..
  have huholds : Function.update (view s).holds t (hasMutex (s.place t)) = (view s).holds := Function.update_eq_self ..
  rcases step_cases hs with ⟨hp, rfl⟩ | ⟨hp, v, hv, rfl⟩ | ⟨hp, -, rfl⟩ | ⟨hp, -, rfl⟩ |
    ⟨l, c, o, hp, he, rfl⟩ | ⟨hp, -, rfl⟩ |
    ⟨hp, rfl⟩ | ⟨hp, rfl⟩
  · exact Or.inl (view_same (by rw [hp]; rfl) (by rw [hp]; rfl))
  · -- the mutex is taken before the test
    rw [hp] at hpc hupc
    refine Or.inr ⟨.lock, ?_⟩
    have hwait : semWait (view s).cv.mutex = some v := by
      show semWait s.cv.mutex = some v
      rw [hv]
      exact if_pos (Nat.succ_pos v)
    simp only [Condition.step]
    rw [if_pos (show (view s).pc t = none from hpc), hwait, view_goto, show loc .test = loc .lock from rfl, hupc]
    rfl
  · exact Or.inl (view_same (by rw [hp]; rfl) (by rw [hp]; rfl))
  · rw [hp] at hpc hholds huholds
    refine Or.inr ⟨.wait, ?_⟩
    have hcall : (view s).pc t = none ∧ (view s).holds t = true := ⟨hpc, hholds⟩
    simp only [Condition.step]
    rw [if_pos hcall, view_goto, show hasMutex (.cv .waitLock) = hasMutex .test from rfl, huholds]
    rfl
  · rw [hp] at hpc hholds hc
    obtain ⟨-, hloc, -, hafter⟩ := exec_back (t := t) hc he
    refine Or.inr ⟨.exec l, ?_⟩
    simp only [Condition.step]
    rw [if_pos (show (view s).pc t = some l from hpc), show exec (view s).cv l = some (c, o) from he, view_goto, hloc,
      ← hafter _ hholds]
    rfl
  · exact Or.inl (view_same (by rw [hp]; rfl) (by rw [hp]; rfl))
  · rw [hp] at hpc huholds
    refine Or.inr ⟨.broadcast, ?_⟩
    simp only [Condition.step]
    rw [if_pos (show (view s).pc t = none from hpc), view_goto, show hasMutex (.cv .brLock) = hasMutex .change from rfl,
      huholds]
    rfl
  · rw [hp] at hpc hholds hupc
    refine Or.inr ⟨.unlock, ?_⟩
    have hcall : (view s).pc t = none ∧ (view s).holds t = true := ⟨hpc, hholds⟩
    simp only [Condition.step]
    rw [if_pos hcall, view_goto, show loc .other = loc .unlock from rfl, hupc]
    rfl

/-! ## The invariant -/

/-- In `my_cv_wait` because of the condition, and not yet woken. -/
def wanting : Place → Bool
  | .cv .waitLock | .cv .waitInc | .cv .waitUnlock | .cv .waitRelease | .cv .waitSleep => true
  | _ => false

/-- In a broadcast that has not yet woken everybody. -/
def dirty : Place → Bool
  | .cv .brLock | .cv (.brTest _) | .cv (.brPost _) | .cv (.brShake _) | .cv .brClear => true
  | _ => false

structure Safe (bufSize : Int) (role : τ → Role) (es : List (τ × Place)) (s : State τ) : Prop where
  cond : Inv (view s)
  mutex : s.cv.mutex + tally s.place hasMutex = 1
  called : ∀ t, called (s.place t) = true
  bounds : 0 ≤ s.cnt ∧ s.cnt ≤ bufSize
  checked : ∀ t, s.place t = .check ∨ s.place t = .change → Cond bufSize (role t) s.cnt
  items : (items role .producer es : Int) - items role .consumer es = s.cnt
  stale : ∀ t, wanting (s.place t) = true → ¬ Cond bufSize (role t) s.cnt ∨ ∃ u, dirty (s.place u) = true

variable {es : List (τ × Place)}

omit [DecidableEq τ] in
theorem Safe.only (h : Safe bufSize role es s) (ht : hasMutex (s.place t) = true) (hu : hasMutex (s.place u) = true) :
    t = u :=
  tally_unique (f := s.place) (by have := h.mutex; omega) ht hu

theorem hasMutex_of_dirty (h : dirty p = true) : hasMutex p = true := by
  unfold dirty at h
  split at h <;> first | rfl | cases h

theorem wanting_cases (h : wanting p = true) : hasMutex p = true ∨ registered (loc p) = true := by
  unfold wanting at h
  split at h
  · exact Or.inl rfl
  · exact Or.inl rfl
  · exact Or.inr rfl
  · exact Or.inr rfl
  · exact Or.inr rfl
  · cases h

/-- Where a statement of the condition variable leads to. -/
theorem exec_place (hc : called (.cv l) = true) (he : exec c l = some (c', o)) :
    o.elim (back l) .cv ≠ .check ∧ o.elim (back l) .cv ≠ .change ∧
    (wanting (o.elim (back l) .cv) = true → wanting (.cv l) = true) ∧
    (dirty (.cv l) = true → dirty (o.elim (back l) .cv) = true ∨ l = .brClear ∧ o = some .brUnlock) := by
  cases l with
  | waitInc | waitUnlock | waitRelease | waitShake | brUnlock | brPost i =>
    cases he
    simp [back, wanting, dirty]
  | brClear =>
    cases he
    simp [back, wanting, dirty]
  | waitLock | waitSleep | waitAcquire | brLock | brShake i =>
    obtain ⟨v, hv, he⟩ := Option.map_eq_some_iff.1 he
    cases he
    simp [back, wanting, dirty]
  | brTest i =>
    cases he
    by_cases hn : (i : Int) < c.nwait
    · simp [hn, back, wanting, dirty]
    · simp [hn, back, wanting, dirty]
  | _ => cases hc

/-! ## A step -/

omit [Fintype τ] [DecidableEq τ] in
theorem items_snoc (r : Role) (es : List (τ × Place)) (e : τ × Place) :
    items role r (es ++ [e]) = items role r es + if role e.1 = r ∧ e.2 = .change then 1 else 0 := by
  unfold items
  rw [List.countP_append, List.countP_singleton]
  simp

/-- A thread moves, and `cnt` stays as it is. -/
theorem Safe.move {q : Place} (h : Safe bufSize role es s) (hi : Inv (view ⟨c', s.cnt, Function.update s.place t p⟩))
    (hq : q ≠ .change) (hc : Buffer.called p = true)
    (hm : c'.mutex + (hasMutex p).toNat = s.cv.mutex + (hasMutex (s.place t)).toNat)
    (hp : p = .check ∨ p = .change → Cond bufSize (role t) s.cnt)
    (hw : wanting p = true → wanting (s.place t) = true ∨ ¬ Cond bufSize (role t) s.cnt)
    (hd : dirty (s.place t) = true → dirty p = true ∨ ∀ u, wanting (Function.update s.place t p u) = false) :
    Safe bufSize role (es ++ [(t, q)]) ⟨c', s.cnt, Function.update s.place t p⟩ := by
  have hcount := tally_update s.place hasMutex t p
  have hmutex := h.mutex
  have hself : Function.update s.place t p t = p := Function.update_self ..
  have hrest : ∀ u, u ≠ t → Function.update s.place t p u = s.place u := fun u hu => Function.update_of_ne hu _ _
  refine ⟨hi, ?_, fun u => ?_, h.bounds, fun u hu => ?_, ?_, fun u hu => ?_⟩
  · show c'.mutex + tally (Function.update s.place t p) hasMutex = 1
    omega
  · show Buffer.called (Function.update s.place t p u) = true
    by_cases hut : u = t
    · rw [hut, hself, hc]
    · rw [hrest u hut, h.called u]
  · replace hu : Function.update s.place t p u = .check ∨ Function.update s.place t p u = .change := hu
    by_cases hut : u = t
    · rw [hut, hself] at hu
      rw [hut]
      exact hp hu
    · rw [hrest u hut] at hu
      exact h.checked u hu
  · rw [items_snoc, items_snoc, if_neg fun hc => hq hc.2, if_neg fun hc => hq hc.2]
    exact h.items
  · replace hu : wanting (Function.update s.place t p u) = true := hu
    -- whoever waits now waited before, or is `t`, which has just seen the condition fail
    have hold : ¬ Cond bufSize (role u) s.cnt ∨ ∃ v, dirty (s.place v) = true := by
      by_cases hut : u = t
      · rw [hut, hself] at hu
        rw [hut]
        exact (hw hu).elim (h.stale t) Or.inl
      · rw [hrest u hut] at hu
        exact h.stale u hu
    refine hold.imp_right fun ⟨v, hv⟩ => ?_
    by_cases hvt : v = t
    · rw [hvt] at hv
      rcases hd hv with hd | hd
      · exact ⟨t, by show dirty (Function.update s.place t p t) = true; rw [hself, hd]⟩
      · rw [hd u] at hu
        cases hu
    · exact ⟨v, by show dirty (Function.update s.place t p v) = true; rw [hrest v hvt, hv]⟩

/-- A thread changes `cnt`, which the condition allows. -/
theorem Safe.change (h : Safe bufSize role es s) (hpl : s.place t = .change)
    (hi : Inv (view ⟨s.cv, Buffer.change (role t) s.cnt, Function.update s.place t (.cv .brLock)⟩)) :
    Safe bufSize role (es ++ [(t, .change)]) ⟨s.cv, Buffer.change (role t) s.cnt,
      Function.update s.place t (.cv .brLock)⟩ := by
  have hcount := tally_update s.place hasMutex t (.cv .brLock)
  have hmutex := h.mutex
  have hself : Function.update s.place t (.cv .brLock) t = .cv .brLock := Function.update_self ..
  have hrest : ∀ u, u ≠ t → Function.update s.place t (.cv .brLock) u = s.place u := fun u hu =>
    Function.update_of_ne hu _ _
  have hcond := h.checked t (Or.inr hpl)
  have hbounds := h.bounds
  rw [hpl] at hcount
  refine ⟨hi, ?_, fun u => ?_, ?_, fun u hu => ?_, ?_, fun u _ => Or.inr ⟨t, ?_⟩⟩
  · show s.cv.mutex + tally (Function.update s.place t (.cv .brLock)) hasMutex = 1
    have h1 : hasMutex .change = true := rfl
    have h2 : hasMutex (.cv .brLock) = true := rfl
    rw [h1, h2] at hcount
    omega
  · show Buffer.called (Function.update s.place t (.cv .brLock) u) = true
    by_cases hut : u = t
    · rw [hut, hself]
      rfl
    · rw [hrest u hut, h.called u]
  · show 0 ≤ Buffer.change (role t) s.cnt ∧ Buffer.change (role t) s.cnt ≤ bufSize
    cases hr : role t <;> rw [hr] at hcond <;> simp only [Cond, Buffer.change] at hcond ⊢ <;> omega
  · -- nobody else has the mutex
    replace hu : Function.update s.place t (.cv .brLock) u = .check ∨
        Function.update s.place t (.cv .brLock) u = .change := hu
    by_cases hut : u = t
    · rw [hut, hself] at hu
      rcases hu with hu | hu <;> cases hu
    · rw [hrest u hut] at hu
      exact absurd (h.only (by rcases hu with hu | hu <;> rw [hu] <;> rfl) (by rw [hpl]; rfl)) hut
  · have hitems := h.items
    rw [items_snoc, items_snoc]
    show _ = Buffer.change (role t) s.cnt
    cases role t <;> simp [Buffer.change] <;> omega
  · show dirty (Function.update s.place t (.cv .brLock) t) = true
    rw [hself]
    rfl

/-- When a broadcast has woken everybody, nobody waits: the others would need the mutex, too. -/
theorem Safe.nobody (h : Safe bufSize role es s) (hp : s.place t = .cv .brClear) (u : τ) :
    wanting (Function.update s.place t (.cv .brUnlock) u) = false := by
  by_cases hut : u = t
  · rw [hut, Function.update_self]
    rfl
  · rw [Function.update_of_ne hut]
    by_contra hc
    rcases wanting_cases (by simpa using hc) with hm | hr
    · exact hut (h.only hm (by rw [hp]; rfl))
    · have hpc : (view s).pc t = some .brClear := congrArg loc hp
      have hledger := h.cond.at hpc rfl
      rw [show registered (loc (s.place u)) = false from tally_none hledger.1 u] at hr
      cases hr

theorem Safe.step (h : Safe bufSize role es s) (hs : step bufSize role s t = some s') :
    Safe bufSize role (es ++ [(t, s.place t)]) s' := by
  have hi : Inv (view s') := by
    rcases view_step (h.called t) hs with he | ⟨a, ha⟩
    · rw [he]
      exact h.cond
    · exact step_inv h.cond ha
  rcases step_cases hs with ⟨hp, rfl⟩ | ⟨hp, v, hv, rfl⟩ | ⟨hp, hc, rfl⟩ | ⟨hp, hc, rfl⟩ |
    ⟨l, c, o, hp, he, rfl⟩ | ⟨hp, hc, rfl⟩ |
    ⟨hp, rfl⟩ | ⟨hp, rfl⟩ <;> rw [hp]
  · refine h.move hi (by decide) rfl (by rw [hp]; rfl) (by simp) (fun hw => by cases hw) fun hd => ?_
    rw [hp] at hd
    cases hd
  · refine h.move hi (by decide) rfl (by rw [hp, hv]; rfl) (by simp) (fun hw => by cases hw) fun hd => ?_
    rw [hp] at hd
    cases hd
  · refine h.move hi (by decide) rfl (by rw [hp]; rfl) (fun _ => hc) (fun hw => by cases hw) fun hd => ?_
    rw [hp] at hd
    cases hd
  · refine h.move hi (by decide) rfl (by rw [hp]; rfl) (by simp) (fun _ => Or.inr hc) fun hd => ?_
    rw [hp] at hd
    cases hd
  · -- a step inside `wait` or `broadcast`; the last one of a broadcast has woken everybody
    have hcalled := h.called t
    rw [hp] at hcalled
    obtain ⟨hback, -, hm, -⟩ := exec_back (t := t) hcalled he
    obtain ⟨h1, h2, hw, hd⟩ := exec_place hcalled he
    refine h.move hi (by simp) hback (by rw [hp, hm]) (fun hc => hc.elim (fun hc => absurd hc h1) fun hc =>
      absurd hc h2)
      (fun hw' => Or.inl (by rw [hp]; exact hw hw')) fun hd' => ?_
    rw [hp] at hd'
    refine (hd hd').imp_right fun hlast => ?_
    obtain ⟨rfl, rfl⟩ := hlast
    exact h.nobody hp
  · refine h.move hi (by decide) rfl (by rw [hp]; rfl) (fun _ => hc) (fun hw => by cases hw) fun hd => ?_
    rw [hp] at hd
    cases hd
  · exact h.change hp hi
  · refine h.move hi (by decide) rfl (by rw [hp]; rfl) (by simp) (fun hw => by cases hw) fun hd => ?_
    rw [hp] at hd
    cases hd

omit [Fintype τ] [DecidableEq τ] in
theorem start_place (role : τ → Role) (t : τ) : (start role).place t = .other ∨ (start role).place t = .lock := by
  by_cases h : role t = .producer
  · exact Or.inl (if_pos h)
  · exact Or.inr (if_neg h)

omit [DecidableEq τ] in
theorem start_safe (hb : 0 ≤ bufSize) : Safe bufSize role [] (start role) := by
  have hview : view (start role) = Condition.start := by
    unfold view
    congr 1
    · funext t
      rcases start_place role t with h | h
      · exact congrArg loc h
      · exact congrArg loc h
    · funext t
      rcases start_place role t with h | h
      · exact congrArg hasMutex h
      · exact congrArg hasMutex h
  have hnone : tally (start role).place hasMutex = 0 := by
    by_contra hc
    obtain ⟨t, ht⟩ := tally_pos.1 (Nat.pos_of_ne_zero hc)
    rcases start_place role t with h | h <;> rw [h] at ht <;> cases ht
  refine ⟨hview ▸ Condition.start_inv, by rw [hnone]; rfl, fun t => ?_, ⟨le_refl _,
    hb⟩, fun t ht => ?_, rfl, fun t ht => ?_⟩
  · rcases start_place role t with h | h <;> rw [h] <;> rfl
  · rcases start_place role t with h | h <;> rw [h] at ht <;> simp at ht
  · rcases start_place role t with h | h <;> rw [h] at ht <;> cases ht

theorem run_safe (hb : 0 ≤ bufSize) (hr : Run (Step bufSize role) (start role) es s) : Safe bufSize role es s := by
  refine hr.invariant_log (fun es s e s' h hs => ?_) (start_safe hb)
  obtain ⟨t, q⟩ := e
  unfold Step stepAt at hs
  split at hs
  · next hp =>
    rw [show (t, q) = (t, s.place t) from congrArg (Prod.mk t) hp.symm]
    exact h.step hs
  · cases hs

/-! ## No deadlock -/

theorem semWait_pos {v : Nat} (h : 0 < v) : ∃ w, semWait v = some w := ⟨v - 1, if_pos h⟩

/-- Inside `cv->lock` only the wait for the handshake can block. -/
theorem exec_inside (hin : inside (some l) = true) (hc : called (.cv l) = true) (hl : ∀ i, l ≠ .brShake i) :
    (exec c l).isSome := by
  cases l with
  | brShake i => exact absurd rfl (hl i)
  | waitLock | waitRelease | waitSleep | waitShake | waitAcquire | sigLock | brLock => cases hin
  | sigTest | sigDec | sigPost | sigShake | sigUnlock => cases hc
  | _ => rfl

omit [Fintype τ] in
theorem step_cv (hp : s.place t = .cv l) (he : (exec s.cv l).isSome) : (step bufSize role s t).isSome := by
  unfold step
  rw [hp]
  simpa using he

/-- Somebody inside `cv->lock`, or whom they wake, can go on. -/
theorem Safe.go_inside (h : Safe bufSize role es s) (hlock : s.cv.lock ≠ 1) :
    ∃ t, (Buffer.step bufSize role s t).isSome := by
  have hone : s.cv.lock + tally (view s).pc inside = 1 := h.cond.lock
  obtain ⟨t, ht⟩ := tally_pos.1 (show 0 < tally (view s).pc inside by omega)
  replace ht : inside (loc (s.place t)) = true := ht
  obtain ⟨l, hl⟩ : ∃ l, s.place t = .cv l := by
    cases hp : s.place t <;> rw [hp] at ht <;> first | exact ⟨_, rfl⟩ | cases ht
  rw [hl] at ht
  have hcalled := h.called t
  rw [hl] at hcalled
  -- only the handshake of a broadcast can wait while `cv->lock` is held
  by_cases hshake : ∃ i, l = .brShake i
  · obtain ⟨i, rfl⟩ := hshake
    have hledger := h.cond.at (show (view s).pc t = some (.brShake i) from congrArg loc hl) ht
    obtain ⟨h1, h2, h3⟩ := hledger
    replace h1 : s.cv.nwait + s.cv.sleep = tally (view s).pc registered + i + 1 := h1
    replace h2 : (i : Int) < s.cv.nwait := h2
    replace h3 : s.cv.sleep + tally (view s).pc shaking + s.cv.handshake = 1 := h3
    by_cases hh : 0 < s.cv.handshake
    · obtain ⟨w, hw⟩ := semWait_pos hh
      exact ⟨t, step_cv hl (by rw [exec, hw]; rfl)⟩
    by_cases hk : 0 < tally (view s).pc shaking
    · -- a waiter has passed, and posts the handshake
      obtain ⟨u, hu⟩ := tally_pos.1 hk
      replace hu : shaking (loc (s.place u)) = true := hu
      have hpu : s.place u = .cv .waitShake := by
        unfold shaking loc at hu
        split at hu
        · next he =>
          split at he
          · next hl => rw [Option.some.inj he] at hl; exact hl
          · cases he
        · cases hu
      exact ⟨u, step_cv hpu rfl⟩
    · -- the wake-up is still there, for a waiter that has yet to come to sleep or is there
      obtain ⟨u, hu⟩ := tally_pos.1 (show 0 < tally (view s).pc registered by omega)
      replace hu : registered (loc (s.place u)) = true := hu
      obtain ⟨w, hw⟩ := semWait_pos (show 0 < s.cv.sleep by omega)
      obtain ⟨l', hl'⟩ : ∃ l, s.place u = .cv l := by
        cases hp : s.place u <;> rw [hp] at hu <;> first | exact ⟨_, rfl⟩ | cases hu
      rw [hl'] at hu
      refine ⟨u, step_cv hl' ?_⟩
      cases l' with
      | waitUnlock => rfl
      | waitRelease => rfl
      | waitSleep => rw [exec, hw]; rfl
      | _ => cases hu
  · exact ⟨t, step_cv hl (exec_inside ht hcalled fun i hc => hshake ⟨i, hc⟩)⟩

/-- While `cv->lock` is free, a thread that has the mutex or could take it goes on, unless it sleeps. -/
theorem Safe.go_outside (h : Safe bufSize role es s) (hlock : s.cv.lock = 1)
    (hm : hasMutex (s.place t) = true ∨ s.cv.mutex = 1) (hsleep : s.place t ≠ .cv .waitSleep) :
    (Buffer.step bufSize role s t).isSome := by
  have hone : s.cv.lock + tally (view s).pc inside = 1 := h.cond.lock
  have hnone : inside (loc (s.place t)) = false := tally_none (f := (view s).pc) (by omega) t
  have hcalled := h.called t
  have hmutex : ∀ {p}, s.place t = p → hasMutex p = false → ∃ w, semWait s.cv.mutex = some w := fun hp hno => by
    rw [hp, hno] at hm
    exact semWait_pos (by rw [hm.resolve_left (by decide)]; decide)
  obtain ⟨w, hw⟩ := semWait_pos (show 0 < s.cv.lock by omega)
  cases hp : s.place t with
  | other => unfold Buffer.step; rw [hp]; rfl
  | lock =>
    obtain ⟨v, hv⟩ := hmutex hp rfl
    unfold Buffer.step
    rw [hp]
    simp [hv]
  | test => unfold Buffer.step; rw [hp]; rfl
  | check =>
    unfold Buffer.step
    rw [hp]
    simp [h.checked t (Or.inl hp)]
  | change => unfold Buffer.step; rw [hp]; rfl
  | unlock => unfold Buffer.step; rw [hp]; rfl
  | cv l =>
    rw [hp] at hnone hcalled hsleep
    refine step_cv hp ?_
    cases l with
    | waitLock | brLock => rw [exec, hw]; rfl
    | waitRelease | waitShake => rfl
    | waitSleep => exact absurd rfl hsleep
    | waitAcquire =>
      obtain ⟨v, hv⟩ := hmutex hp rfl
      rw [exec, hv]
      rfl
    | sigLock | sigTest | sigDec | sigPost | sigShake | sigUnlock => cases hcalled
    | _ => cases hnone

/-- Not all threads sleep: for a producer the buffer would be full, for a consumer it would be empty. -/
theorem Safe.go (h : Safe bufSize role es s) (hb : 0 < bufSize) (hp : ∃ t, role t = .producer)
    (hc : ∃ t, role t = .consumer) :
    ∃ t, (Buffer.step bufSize role s t).isSome := by
  by_cases hlock : s.cv.lock = 1
  · have hmutex := h.mutex
    by_cases hm : s.cv.mutex = 1
    · obtain ⟨p, hp⟩ := hp
      obtain ⟨c, hc⟩ := hc
      by_cases hps : s.place p = .cv .waitSleep
      · by_cases hcs : s.place c = .cv .waitSleep
        · exfalso
          -- nobody has the mutex, so no change is waiting for its broadcast
          have hclean : ¬ ∃ u, dirty (s.place u) = true := fun ⟨u, hu⟩ => by
            have := tally_pos_of (hasMutex_of_dirty hu)
            omega
          have h1 := (h.stale p (by rw [hps]; rfl)).resolve_right hclean
          have h2 := (h.stale c (by rw [hcs]; rfl)).resolve_right hclean
          rw [hp] at h1
          rw [hc] at h2
          simp only [Cond] at h1 h2
          omega
        · exact ⟨c, h.go_outside hlock (Or.inr hm) hcs⟩
      · exact ⟨p, h.go_outside hlock (Or.inr hm) hps⟩
    · obtain ⟨t, ht⟩ := tally_pos.1 (show 0 < tally s.place hasMutex by omega)
      refine ⟨t, h.go_outside hlock (Or.inl ht) fun hc => ?_⟩
      rw [hc] at ht
      cases ht
  · exact h.go_inside hlock

/-- The threads that `main` creates. -/
def threads (producerNum consumerNum : Nat) : Fin producerNum ⊕ Fin consumerNum → Role :=
  Sum.elim (fun _ => .producer) fun _ => .consumer

/-- In every state of every run: `cnt` is within its bounds and counts the items, the assertions hold, one thread at
most has the mutex, and some thread goes on. -/
theorem buffer_safe {producerNum consumerNum : Nat} {es : List ((Fin producerNum ⊕ Fin consumerNum) × Place)}
    {s : State (Fin producerNum ⊕ Fin consumerNum)} (hp : 0 < producerNum) (hc : 0 < consumerNum) (hb : 0 < bufSize)
    (hr : Run (Step bufSize (threads producerNum consumerNum)) (start (threads producerNum consumerNum)) es s) :
    (0 ≤ s.cnt ∧ s.cnt ≤ bufSize) ∧
    (∀ t, s.place t = .check ∨ s.place t = .change → Cond bufSize (threads producerNum consumerNum t) s.cnt) ∧
    (items (threads producerNum consumerNum) .producer es : Int) - items
    (threads producerNum consumerNum) .consumer es = s.cnt ∧
    (∀ t u, hasMutex (s.place t) = true → hasMutex (s.place u) = true → t = u) ∧
    ∃ t, (step bufSize (threads producerNum consumerNum) s t).isSome := by
  have h := run_safe (le_of_lt hb) hr
  exact ⟨h.bounds, h.checked, h.items, fun t u => h.only, h.go hb ⟨.inl ⟨0, hp⟩, rfl⟩ ⟨.inr ⟨0, hc⟩, rfl⟩⟩

/-- The consumer comes first, and waits; the producer puts an item into the buffer. -/
theorem buffer_safe_demo : ∃ s, Run (Step 1 (threads 1 1)) (start (threads 1 1)) [(.inr 0, .lock), (.inr 0, .test),
      (.inr 0, .cv .waitLock), (.inr 0, .cv .waitInc), (.inr 0, .cv .waitUnlock), (.inr 0, .cv .waitRelease),
      (.inl 0, .other), (.inl 0, .lock), (.inl 0, .test), (.inl 0, .check), (.inl 0, .change)] s ∧ s.cnt = 1 ∧
    (0 ≤ s.cnt ∧ s.cnt ≤ 1) ∧ ∃ t, (step 1 (threads 1 1) s t).isSome := by
  have hev :
    (([(.inr 0, .lock), (.inr 0, .test), (.inr 0, .cv .waitLock), (.inr 0, .cv .waitInc), (.inr 0, .cv .waitUnlock),
      (.inr 0, .cv .waitRelease), (.inl 0, .other), (.inl 0, .lock), (.inl 0, .test), (.inl 0, .check),
      (.inl 0, .change)] :
        List ((Fin 1 ⊕ Fin 1) × Place)).foldlM (stepAt 1 (threads 1 1)) (start (threads 1 1))).any
          (fun s => decide (s.cnt = 1)) = true := by decide
  obtain ⟨s, hs, hev⟩ := (Option.any_eq_true _ _).1 hev
  have hr : Run (Step 1 (threads 1 1)) (start (threads 1 1)) _ s := Run.of_foldlM hs
  have h := buffer_safe (by decide) (by decide) (by decide) hr
  exact ⟨s, hr, of_decide_eq_true hev, h.1, h.2.2.2.2⟩

end TinyOS.Buffer
