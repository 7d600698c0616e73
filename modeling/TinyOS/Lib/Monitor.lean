/-
Monitors: threads that share data under a mutex, wait for a condition on it and change it, either by sleeping until
somebody broadcasts or by trying again. Whoever sleeps while the mutex is free has a condition that is false.
-/
import TinyOS.Lib.Run

namespace TinyOS.Lib

/-- For each thread its condition and the changes that it makes to the data, one after the other. `sleeps` tells
whether a thread with a false condition sleeps, or gives the mutex back and tries again. -/
structure Monitor (τ σ : Type) where
  sleeps : Bool
  cond : τ → σ → Bool
  work : τ → List (σ → σ)

namespace Monitor

/-- Where a thread is in its loop: outside, at the lock, at the condition, in the wait, woken and without the
mutex, at the assertion of the condition, before the `k`-th change, at the broadcast, at the unlock. -/
inductive Place where
  | other
  | lock
  | test
  | asleep
  | awake
  | check
  | work (k : Nat)
  | broadcast
  | unlock
  deriving DecidableEq

/-- Between taking the mutex and giving it back. -/
def Place.inside : Place → Bool
  | .test | .check | .work _ | .broadcast | .unlock => true
  | _ => false

/-- Changes that nobody has been told about. -/
def Place.dirty : Place → Bool
  | .work _ | .broadcast => true
  | _ => false

end Monitor

structure Shared (τ σ : Type) where
  data : σ
  owner : Option τ
  place : τ → Monitor.Place

namespace Monitor

variable {τ σ : Type} [DecidableEq τ]

/-- Thread `t` goes on; asleep it wakes up without a reason. It may be blocked at the lock, or fail the assertion. -/
def step (M : Monitor τ σ) (s : Shared τ σ) (t : τ) : Option (Shared τ σ) :=
  let goto (p : Place) : τ → Place := Function.update s.place t p
  match s.place t with
  | .other => some { s with place := goto .lock }
  | .lock => if s.owner = none then some { s with owner := some t, place := goto .test } else none
  | .test =>
    if M.cond t s.data then some { s with place := goto .check }
    else some { s with owner := none, place := goto (if M.sleeps then .asleep else .lock) }
  | .asleep => some { s with place := goto .awake }
  | .awake => if s.owner = none then some { s with owner := some t, place := goto .test } else none
  | .check => if M.cond t s.data then some { s with place := goto (.work 0) } else none
  | .work k =>
    match (M.work t)[k]? with
    | some f => some { s with data := f s.data, place := goto (.work (k + 1)) }
    | none => some { s with place := goto (if M.sleeps then .broadcast else .unlock) }
  | .broadcast => some { s with
    place := fun u => if u = t then .unlock else if s.place u = .asleep then .awake else s.place u }
  | .unlock => some { s with owner := none, place := goto .other }

/-- A step, given the thread and its place. -/
def Step (M : Monitor τ σ) (s : Shared τ σ) (e : τ × Place) (s' : Shared τ σ) :
    Prop := s.place e.1 = e.2 ∧ M.step s e.1 = some s'

/-- The changes of a thread, one after the other. -/
def all (M : Monitor τ σ) (t : τ) (k : Nat) (x : σ) : σ := ((M.work t).take k).foldl (fun x f => f x) x

/-- The data when the mutex is free is such that `J`, and a thread with a true condition keeps it so. -/
structure Keeps (M : Monitor τ σ) (J : σ → Prop) : Prop where
  all : ∀ t x, J x → M.cond t x = true → J (M.all t (M.work t).length x)

/-- What the thread with the mutex knows about the data. -/
def Held (M : Monitor τ σ) (J : σ → Prop) (t : τ) (x : σ) : Place → Prop
  | .check => J x ∧ M.cond t x = true
  | .work k => ∃ y, J y ∧ M.cond t y = true ∧ x = M.all t k y ∧ k ≤ (M.work t).length
  | _ => J x

structure Inv (M : Monitor τ σ) (J : σ → Prop) (s : Shared τ σ) : Prop where
  owner : ∀ t, s.owner = some t ↔ (s.place t).inside = true
  free : s.owner = none → J s.data
  held : ∀ t, s.owner = some t → M.Held J t s.data (s.place t)
  asleep : ∀ u, s.place u = .asleep → M.sleeps = true ∧
    ((∃ t, s.owner = some t ∧ (s.place t).dirty = true) ∨ M.cond u s.data = false)

variable {M : Monitor τ σ} {J : σ → Prop} {s s' : Shared τ σ} {t u : τ} {p : Place}

omit [DecidableEq τ] in
theorem all_succ {k : Nat} {f : σ → σ} {x : σ} (h : (M.work t)[k]? = some f) : M.all t (k + 1) x = f (M.all t k x) := by
  unfold all
  rw [List.take_add_one, h, List.foldl_append]
  rfl

/-- One thread moves, with the mutex before or after. -/
theorem Inv.move {owner : Option τ} {data : σ} (h : M.Inv J s) (hown : ∀ u, u ≠ t → (owner = some u ↔ s.owner = some u))
    (ht : owner = some t ↔ p.inside = true) (hfree : owner = none → J data) (hheld : owner = some t → M.Held J t data p)
    (hother : ∀ u, u ≠ t → s.owner = some u → data = s.data)
    (hsleep : ∀ u, Function.update s.place t p u = .asleep → M.sleeps = true ∧ (p.dirty = true ∧ owner = some t ∨
      (∃ v, v ≠ t ∧ s.owner = some v ∧ (s.place v).dirty = true) ∨ M.cond u data = false)) :
    M.Inv J ⟨data, owner, Function.update s.place t p⟩ := by
  refine ⟨fun u => ?_, hfree, fun u hu => ?_, fun u hu => ?_⟩
  · by_cases hut : u = t
    · subst hut
      show owner = some u ↔ (Function.update s.place u p u).inside = true
      rw [Function.update_self]
      exact ht
    · show owner = some u ↔ (Function.update s.place t p u).inside = true
      rw [Function.update_of_ne hut, hown u hut]
      exact h.owner u
  · show M.Held J u data (Function.update s.place t p u)
    by_cases hut : u = t
    · subst hut
      rw [Function.update_self]
      exact hheld hu
    · have hu := (hown u hut).1 hu
      rw [Function.update_of_ne hut, hother u hut hu]
      exact h.held u hu
  · obtain ⟨h1, h2⟩ := hsleep u hu
    refine ⟨h1, ?_⟩
    obtain ⟨h2, h3⟩ | ⟨v, hv, h2, h3⟩ | h2 := h2
    · exact .inl ⟨t, h3, by
        show (Function.update s.place t p t).dirty = true
        rw [Function.update_self]
        exact h2⟩
    · exact .inl ⟨v, (hown v hv).2 h2, by
        show (Function.update s.place t p v).dirty = true
        rw [Function.update_of_ne hv]
        exact h3⟩
    · exact .inr h2

/-! ## What a step does -/

inductive Moves (M : Monitor τ σ) (s : Shared τ σ) (t : τ) : Shared τ σ → Prop
  | leave (hp : s.place t = .other) : Moves M s t { s with place := Function.update s.place t .lock }
  | acquire (hp : s.place t = .lock ∨ s.place t = .awake) (ho : s.owner = none) :
      Moves M s t { s with owner := some t, place := Function.update s.place t .test }
  | pass (hp : s.place t = .test) (hc : M.cond t s.data = true) :
      Moves M s t { s with place := Function.update s.place t .check }
  | wait (hp : s.place t = .test) (hc : M.cond t s.data = false) :
      Moves M s t { s with owner := none, place := Function.update s.place t (if M.sleeps then .asleep else .lock) }
  | wake (hp : s.place t = .asleep) : Moves M s t { s with place := Function.update s.place t .awake }
  | assert (hp : s.place t = .check) (hc : M.cond t s.data = true) :
      Moves M s t { s with place := Function.update s.place t (.work 0) }
  | work {k : Nat} {f : σ → σ} (hp : s.place t = .work k) (hf : (M.work t)[k]? = some f) :
      Moves M s t { s with data := f s.data, place := Function.update s.place t (.work (k + 1)) }
  | done {k : Nat} (hp : s.place t = .work k) (hf : (M.work t)[k]? = none) :
      Moves M s t { s with place := Function.update s.place t (if M.sleeps then .broadcast else .unlock) }
  | broadcast (hp : s.place t = .broadcast) :
      Moves M s t { s with
        place := fun u => if u = t then .unlock else if s.place u = .asleep then .awake else s.place u }
  | unlock (hp : s.place t = .unlock) : Moves M s t { s with owner := none, place := Function.update s.place t .other }

theorem Moves.of_step (hs : M.step s t = some s') : Moves M s t s' := by
  unfold Monitor.step at hs
  cases hp : s.place t with
  | other =>
    rw [hp] at hs
    exact Option.some.inj hs ▸ .leave hp
  | lock =>
    rw [hp] at hs
    simp only at hs
    split at hs
    · next ho => exact Option.some.inj hs ▸ .acquire (.inl hp) ho
    · cases hs
  | test =>
    rw [hp] at hs
    simp only at hs
    split at hs
    · next hc => exact Option.some.inj hs ▸ .pass hp hc
    · next hc => exact Option.some.inj hs ▸ .wait hp (Bool.eq_false_iff.2 hc)
  | asleep =>
    rw [hp] at hs
    exact Option.some.inj hs ▸ .wake hp
  | awake =>
    rw [hp] at hs
    simp only at hs
    split at hs
    · next ho => exact Option.some.inj hs ▸ .acquire (.inr hp) ho
    · cases hs
  | check =>
    rw [hp] at hs
    simp only at hs
    split at hs
    · next hc => exact Option.some.inj hs ▸ .assert hp hc
    · cases hs
  | work k =>
    rw [hp] at hs
    simp only at hs
    cases hf : (M.work t)[k]? with
    | some f =>
      rw [hf] at hs
      exact Option.some.inj hs ▸ .work hp hf
    | none =>
      rw [hf] at hs
      exact Option.some.inj hs ▸ .done hp hf
  | broadcast =>
    rw [hp] at hs
    exact Option.some.inj hs ▸ .broadcast hp
  | unlock =>
    rw [hp] at hs
    exact Option.some.inj hs ▸ .unlock hp

/-- Only a change changes the data. -/
theorem Moves.data (h : Moves M s t s') : (∃ k f, s.place t = .work k ∧ (M.work t)[k]? = some f ∧ s'.data = f s.data) ∨
    (∀ k, s.place t = .work k → (M.work t)[k]? = none) ∧ s'.data = s.data := by
  have hno : ∀ {p : Place}, s.place t = p → (∀ k, p ≠ .work k) → ∀ k, s.place t = .work k → (M.work t)[k]? = none :=
    fun hp h k hk => absurd (hp.symm.trans hk) (h k)
  cases h with
  | work hp hf => exact .inl ⟨_, _, hp, hf, rfl⟩
  | done hp hf =>
    refine .inr ⟨fun k hk => ?_, rfl⟩
    obtain rfl := Place.work.inj (hp.symm.trans hk)
    exact hf
  | acquire hp ho => exact .inr ⟨hp.elim (fun hp => hno hp (by simp)) fun hp => hno hp (by simp), rfl⟩
  | leave hp => exact .inr ⟨hno hp (by simp), rfl⟩
  | pass hp hc => exact .inr ⟨hno hp (by simp), rfl⟩
  | wait hp hc => exact .inr ⟨hno hp (by simp), rfl⟩
  | wake hp => exact .inr ⟨hno hp (by simp), rfl⟩
  | assert hp hc => exact .inr ⟨hno hp (by simp), rfl⟩
  | broadcast hp => exact .inr ⟨hno hp (by simp), rfl⟩
  | unlock hp => exact .inr ⟨hno hp (by simp), rfl⟩

/-- A thread falls asleep at a condition that is false, and nowhere else. -/
theorem Moves.sleep (h : Moves M s t s') (hu : s'.place u = .asleep ∨ s'.place u = .awake) :
    s.place u = .asleep ∨ s.place u = .awake ∨ u = t ∧ s.place t = .test ∧ M.cond t s.data = false := by
  have hmove : ∀ p : Place,
      (p = .asleep ∨ p = .awake → s.place t = .asleep ∨ s.place t = .awake ∨ s.place t = .test ∧
        M.cond t s.data = false) →
      Function.update s.place t p u = .asleep ∨ Function.update s.place t p u = .awake →
        s.place u = .asleep ∨ s.place u = .awake ∨ u = t ∧ s.place t = .test ∧ M.cond t s.data = false := by
    intro p hp hu
    by_cases hut : u = t
    · subst hut
      rw [Function.update_self] at hu
      exact (hp hu).imp id (Or.imp id fun h => ⟨rfl, h⟩)
    · rw [Function.update_of_ne hut] at hu
      exact hu.imp id .inl
  cases h with
  | leave hp => exact hmove _ (by simp) hu
  | acquire hp ho => exact hmove _ (by simp) hu
  | pass hp hc => exact hmove _ (by simp) hu
  | wait hp hc => exact hmove _ (fun _ => .inr (.inr ⟨hp, hc⟩)) hu
  | wake hp => exact hmove _ (fun _ => .inl hp) hu
  | assert hp hc => exact hmove _ (by simp) hu
  | work hp hf => exact hmove _ (by simp) hu
  | done hp hf => exact hmove _ (by split <;> simp) hu
  | unlock hp => exact hmove _ (by simp) hu
  | broadcast hp =>
    have hu : (if u = t then Place.unlock else if s.place u = .asleep then .awake else s.place u) = .asleep ∨
      (if u = t then Place.unlock else if s.place u = .asleep then .awake else s.place u) = .awake := hu
    split_ifs at hu with h1 h2
    · obtain hu | hu := hu <;> cases hu
    · exact .inl h2
    · exact hu.imp id .inl

/-! ## The invariant -/

/-- A thread without the mutex moves to another such place, and is not asleep then. -/
theorem Inv.outside (h : M.Inv J s) (ht : (s.place t).inside = false) (hp : p.inside = false) (hn : p ≠ .asleep) :
    M.Inv J { s with place := Function.update s.place t p } := by
  have hno : s.owner ≠ some t := fun ho => Bool.noConfusion (ht.symm.trans ((h.owner t).1 ho))
  refine h.move (fun _ _ => Iff.rfl) (iff_of_false hno (by rw [hp]; decide)) h.free (fun ho => absurd ho hno)
    (fun _ _ _ => rfl) fun u hu => ?_
  by_cases hut : u = t
  · rw [hut, Function.update_self] at hu
    exact absurd hu hn
  · rw [Function.update_of_ne hut] at hu
    obtain ⟨h1, ⟨v, h2, h3⟩ | h2⟩ := h.asleep u hu
    · refine ⟨h1, .inr (.inl ⟨v, ?_, h2, h3⟩)⟩
      rintro rfl
      exact hno h2
    · exact ⟨h1, .inr (.inr h2)⟩

theorem Inv.acquire (h : M.Inv J s) (ho : s.owner = none) :
    M.Inv J { s with owner := some t, place := Function.update s.place t .test } := by
  refine h.move (fun u hu => ?_) (iff_of_true rfl rfl) (fun hc => (by cases hc)) (fun _ => h.free ho)
    (fun _ _ _ => rfl) fun u hu => ?_
  · rw [ho]
    exact iff_of_false (fun hc => hu (Option.some.inj hc).symm) (fun hc => by cases hc)
  · by_cases hut : u = t
    · rw [hut, Function.update_self] at hu
      cases hu
    · rw [Function.update_of_ne hut] at hu
      obtain ⟨h1, ⟨v, h2, -⟩ | h2⟩ := h.asleep u hu
      · rw [ho] at h2
        cases h2
      · exact ⟨h1, .inr (.inr h2)⟩

/-- The thread with the mutex goes on with it. -/
theorem Inv.inside {y : σ} (h : M.Inv J s) (ho : s.owner = some t) (hp : p.inside = true) (hd : M.Held J t y p)
    (hs : M.sleeps = true → p.dirty = true ∨ y = s.data ∧ (s.place t).dirty = false) :
    M.Inv J { s with data := y, place := Function.update s.place t p } := by
  refine h.move (fun _ _ => Iff.rfl) (iff_of_true ho hp) (fun hc => ?_) (fun _ => hd) (fun u hut hu => ?_) fun u hu =>
    ?_
  · rw [ho] at hc
    cases hc
  · rw [ho] at hu
    exact absurd (Option.some.inj hu).symm hut
  · by_cases hut : u = t
    · rw [hut, Function.update_self] at hu
      rw [hu] at hp
      cases hp
    · rw [Function.update_of_ne hut] at hu
      obtain ⟨h1, h2⟩ := h.asleep u hu
      refine ⟨h1, ?_⟩
      obtain hdirty | ⟨rfl, hclean⟩ := hs h1
      · exact .inl ⟨hdirty, ho⟩
      · obtain ⟨v, h3, h4⟩ | h2 := h2
        · rw [ho] at h3
          obtain rfl := Option.some.inj h3
          exact Bool.noConfusion (hclean.symm.trans h4)
        · exact .inr (.inr h2)

/-- The mutex is given back where all changes are told. -/
theorem Inv.release (h : M.Inv J s) (ho : s.owner = some t) (hc : (s.place t).dirty = false) (hd : J s.data)
    (hp : p.inside = false) (hs : p = .asleep → M.sleeps = true ∧ M.cond t s.data = false) :
    M.Inv J { s with owner := none, place := Function.update s.place t p } := by
  refine h.move (fun u hu => ?_) (iff_of_false (fun hc => by cases hc) (by rw [hp]; decide)) (fun _ => hd)
    (fun hc => by cases hc) (fun _ _ _ => rfl) fun u hu => ?_
  · rw [ho]
    exact iff_of_false (fun hc => by cases hc) fun hc => hu (Option.some.inj hc).symm
  · by_cases hut : u = t
    · subst hut
      rw [Function.update_self] at hu
      exact ⟨(hs hu).1, .inr (.inr (hs hu).2)⟩
    · rw [Function.update_of_ne hut] at hu
      obtain ⟨h1, ⟨v, h2, h3⟩ | h2⟩ := h.asleep u hu
      · rw [ho] at h2
        obtain rfl := Option.some.inj h2
        exact Bool.noConfusion (hc.symm.trans h3)
      · exact ⟨h1, .inr (.inr h2)⟩

theorem Inv.broadcast (h : M.Inv J s) (ht : s.place t = .broadcast) :
    M.Inv J { s with
      place := fun u => if u = t then .unlock else if s.place u = .asleep then .awake else s.place u } := by
  have ho : s.owner = some t := (h.owner t).2 (by rw [ht]; rfl)
  refine ⟨fun u => ?_, h.free, fun u hu => ?_, fun u hu => ?_⟩
  · show s.owner = some u ↔
      Place.inside (if u = t then .unlock else if s.place u = .asleep then .awake else s.place u) = true
    split_ifs with h1 h2
    · exact iff_of_true (h1 ▸ ho) rfl
    · rw [h.owner u, h2]
      rfl
    · exact h.owner u
  · have hut : u = t := Option.some.inj (hu.symm.trans ho)
    subst hut
    show M.Held J u s.data (if u = u then .unlock else if s.place u = .asleep then .awake else s.place u)
    rw [if_pos rfl]
    have hd := h.held u ho
    rw [ht] at hd
    exact hd
  · have hu : (if u = t then Place.unlock else if s.place u = .asleep then .awake else s.place u) = .asleep := hu
    split_ifs at hu with h1 h2
    exact absurd hu h2

theorem Inv.step (hk : M.Keeps J) (h : M.Inv J s) (hs : Moves M s t s') : M.Inv J s' := by
  have hown : ∀ {p : Place}, s.place t = p → p.inside = true → s.owner = some t ∧ M.Held J t s.data p := by
    rintro p rfl hin
    have ho := (h.owner t).2 hin
    exact ⟨ho, h.held t ho⟩
  cases hs with
  | leave hp => exact h.outside (by rw [hp]; rfl) rfl (by decide)
  | acquire hp ho => exact h.acquire ho
  | pass hp hc =>
    obtain ⟨ho, hd⟩ := hown hp rfl
    exact h.inside ho rfl ⟨hd, hc⟩ fun _ => .inr ⟨rfl, by rw [hp]; rfl⟩
  | wait hp hc =>
    obtain ⟨ho, hd⟩ := hown hp rfl
    refine h.release ho (by rw [hp]; rfl) hd (by split <;> rfl) fun hasleep => ?_
    split at hasleep
    · next hsl => exact ⟨hsl, hc⟩
    · cases hasleep
  | wake hp => exact h.outside (by rw [hp]; rfl) rfl (by decide)
  | assert hp hc =>
    obtain ⟨ho, hd⟩ := hown hp rfl
    exact h.inside ho rfl ⟨s.data, hd.1, hd.2, rfl, Nat.zero_le _⟩ fun _ => .inl rfl
  | work hp hf =>
    obtain ⟨ho, y, hy, hc, hx, -⟩ := hown hp rfl
    exact h.inside ho rfl ⟨y, hy, hc, by rw [all_succ hf, hx], (List.getElem?_eq_some_iff.1 hf).1⟩ fun _ => .inl rfl
  | @done k hp hf =>
    obtain ⟨ho, y, hy, hc, hx, hle⟩ := hown hp rfl
    obtain rfl : k = (M.work t).length := le_antisymm hle (List.getElem?_eq_none_iff.1 hf)
    have hJ : J s.data := by
      rw [hx]
      exact hk.all t y hy hc
    refine h.inside (y := s.data) ho (by split <;> rfl) (by split <;> exact hJ) fun hsl => .inl ?_
    rw [if_pos hsl]
    rfl
  | broadcast hp => exact h.broadcast hp
  | unlock hp =>
    obtain ⟨ho, hd⟩ := hown hp rfl
    exact h.release ho (by rw [hp]; rfl) hd rfl fun hasleep => by cases hasleep

/-! ## Runs -/

omit [DecidableEq τ] in
/-- The threads begin outside or at the lock. -/
theorem start_inv {x : σ} {first : τ → Place} (hx : J x) (hf : ∀ t, first t = .other ∨ first t = .lock) :
    M.Inv J ⟨x, none, first⟩ := by
  refine ⟨fun t => iff_of_false (fun hc => by cases hc) ?_, fun _ => hx, fun t ht => (by cases ht), fun u hu => ?_⟩
  · show ¬ (first t).inside = true
    obtain h | h := hf t <;> rw [h] <;> decide
  · have hu : first u = .asleep := hu
    obtain h | h := hf u <;> rw [h] at hu <;> cases hu

/-- A run by the steps of a list. -/
theorem run_of_foldlM {es : List (τ × Place)}
    (h : es.foldlM (fun s e => if s.place e.1 = e.2 then M.step s e.1 else none) s = some s') : Run M.Step s es s' := by
  refine (Run.of_foldlM h).mono fun s e s' hs => ?_
  split at hs
  · next hp => exact ⟨hp, hs⟩
  · cases hs

theorem run_inv {es : List (τ × Place)} (hk : M.Keeps J) (h : M.Inv J s) (hr : Run M.Step s es s') : M.Inv J s' :=
  hr.invariant (fun _ _ _ hi hs => hi.step hk (.of_step hs.2)) h

omit [DecidableEq τ] in
/-- While the mutex is free nobody sleeps through a condition that is true. -/
theorem Inv.cond_false (h : M.Inv J s) (ho : s.owner = none) (hu : s.place u = .asleep) : M.cond u s.data = false := by
  obtain ⟨-, ⟨t, ht, -⟩ | h⟩ := h.asleep u hu
  · rw [ho] at ht
    cases ht
  · exact h

omit [DecidableEq τ] in
/-- The assertion of the thread with the mutex holds. -/
theorem Inv.cond_true (h : M.Inv J s) (ht : s.place t = .check) : M.cond t s.data = true := by
  have hd := h.held t ((h.owner t).2 (by rw [ht]; rfl))
  rw [ht] at hd
  exact hd.2

omit [DecidableEq τ] in
theorem Inv.one (h : M.Inv J s) (ht : (s.place t).inside = true) (hu : (s.place u).inside = true) : t = u :=
  Option.some.inj (((h.owner t).2 ht).symm.trans ((h.owner u).2 hu))

/-- If the data when the mutex is free always let somebody through, then somebody who is not asleep can go on. -/
theorem Inv.progress (h : M.Inv J s) (hJ : ∀ x, J x → ∃ t, M.cond t x = true) :
    ∃ t s', s.place t ≠ .asleep ∧ M.step s t = some s' := by
  cases ho : s.owner with
  | some t =>
    have hin := (h.owner t).1 ho
    have hchk := h.cond_true (t := t)
    refine ⟨t, ?_⟩
    unfold Monitor.step
    cases hp : s.place t with
    | test =>
      simp only
      split <;> exact ⟨_, by decide, rfl⟩
    | check => exact ⟨_, by decide, if_pos (hchk hp)⟩
    | work k =>
      simp only
      split <;> exact ⟨_, by simp, rfl⟩
    | broadcast => exact ⟨_, by decide, rfl⟩
    | unlock => exact ⟨_, by decide, rfl⟩
    | other => rw [hp] at hin; cases hin
    | lock => rw [hp] at hin; cases hin
    | asleep => rw [hp] at hin; cases hin
    | awake => rw [hp] at hin; cases hin
  | none =>
    obtain ⟨t, ht⟩ := hJ s.data (h.free ho)
    have hout : (s.place t).inside = false := by
      refine Bool.eq_false_iff.2 fun hin => ?_
      rw [(h.owner t).2 hin] at ho
      cases ho
    refine ⟨t, ?_⟩
    have hnot : s.place t ≠ .asleep := fun hp => Bool.noConfusion ((h.cond_false ho hp).symm.trans ht)
    unfold Monitor.step
    cases hp : s.place t with
    | other => exact ⟨_, by decide, rfl⟩
    | lock => exact ⟨_, by decide, if_pos ho⟩
    | awake => exact ⟨_, by decide, if_pos ho⟩
    | asleep => exact absurd hp hnot
    | test => rw [hp] at hout; cases hout
    | check => rw [hp] at hout; cases hout
    | work k => rw [hp] at hout; cases hout
    | broadcast => rw [hp] at hout; cases hout
    | unlock => rw [hp] at hout; cases hout

end Monitor

end TinyOS.Lib
