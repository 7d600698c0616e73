/-
Nobody is passed over for long: the slots that `schedule` selects come closer and closer to a READY
process, and nothing but running takes the status READY away.
-/
import TinyOS.Proc.Sched

namespace TinyOS.Kernel

open TinyOS.Lib TinyOS.Klib

variable {k k' : Kernel} {s s' s₁ : Sys Sema} {p q r c n : Nat} {x : Sema} {v : Int} {e : Event} {out : Out}

/-! ## The distance of two slots -/

/-- The rounds in which the search of `schedule` gets from PCB `p` to PCB `q`; a whole turn to `p` itself. -/
def distance (p q : Nat) : Nat := (q + procNum - p - 1) % procNum + 1

theorem distance_le : distance p q ≤ procNum := Nat.mod_lt _ (by decide)

theorem distance_next (hp : p < procNum) (hq : q < procNum) (hne : nextProc p ≠ q) :
    distance (nextProc p) q + 1 = distance p q := by
  unfold distance nextProc procNum at *
  split at hne
  · rw [if_pos (by assumption)]
    omega
  · rw [if_neg (by assumption)]
    omega

/-- The search does not pass a READY process. -/
theorem search_closer {status : Nat → Status} (h : search status n p = some r) (hp : p < procNum) (hq : q < procNum)
    (hr : status q = .ready) : r = q ∨ distance r q < distance p q := by
  induction n generalizing p with
  | zero => cases h
  | succ n ih =>
    unfold search at h
    by_cases hnext : nextProc p = q
    · rw [hnext, if_pos hr] at h
      cases h
      exact Or.inl rfl
    · have hless := distance_next hp hq hnext
      split at h
      · cases h
        right
        omega
      · refine (ih h (nextProc_lt hp)).imp_right fun hlt => ?_
        omega

/-! ## READY lasts -/

/-- The current process is the same, and all who were READY still are. -/
structure StillReady (s s' : Sys Sema) : Prop where
  curr : s'.curr = s.curr
  ready : ∀ q, s.status q = .ready → s'.status q = .ready

theorem StillReady.of_eq (h1 : s'.curr = s.curr) (h2 : s'.status = s.status) : StillReady s s' :=
  ⟨h1, fun _ hq => h2 ▸ hq⟩

theorem StillReady.of_sys (h : s' = s) : StillReady s s' := h ▸ .of_eq rfl rfl

theorem StillReady.trans (h : StillReady s s₁) (h' : StillReady s₁ s') : StillReady s s' :=
  ⟨h'.curr.trans h.curr, fun q hq => h'.ready q (h.ready q hq)⟩

/-- One status changes, of a process that is not READY or to READY. -/
theorem StillReady.of_update {st : Status} (h1 : s'.curr = s.curr) (h2 : s'.status = Function.update s.status p st)
    (hp : s.status p = .ready → st = .ready) : StillReady s s' := by
  refine ⟨h1, fun q hq => ?_⟩
  rw [h2]
  by_cases hqp : q = p
  · subst hqp
    rw [Function.update_self]
    exact hp hq
  · rw [Function.update_of_ne hqp]
    exact hq

theorem semP_still (hn : s.status s.curr ≠ .ready) (hs : s.semP x = some s') :
    StillReady s s' ∧ s'.status s'.curr ≠ .ready := by
  rcases Sys.semP_cases hs with ⟨-, rfl⟩ | ⟨-, l, -, rfl⟩
  · exact ⟨.of_eq rfl rfl, hn⟩
  · refine ⟨.of_update (p := s.curr) rfl rfl fun hc => absurd hc hn, ?_⟩
    show Function.update s.status s.curr .blocked s.curr ≠ .ready
    rw [Function.update_self]
    decide

theorem semV_still (hs : s.semV x = some s') : StillReady s s' := by
  rcases Sys.semV_cases hs with ⟨-, rfl⟩ | ⟨-, p, l, -, rfl⟩
  · exact .of_eq rfl rfl
  · exact .of_update (p := p) rfl rfl fun _ => rfl

theorem yield_still : StillReady k.sys k.sysYield.sys := .of_update (p := k.sys.curr) rfl rfl fun _ => rfl

theorem sysSleep_still {cur ticks : Nat} (he : k.sysSleep cur ticks = (k', out)) : StillReady k.sys k'.sys := by
  unfold sysSleep at he
  split at he
  · cases he
    exact yield_still
  · cases he
    exact .of_eq rfl rfl

theorem sysFork_still : StillReady k.sys k.sysFork.sys := by
  unfold sysFork
  cases ha : k.procAlloc with
  | none => exact .of_eq rfl rfl
  | some ck =>
    obtain ⟨c, k₁⟩ := ck
    obtain ⟨-, -, hst, hk₁⟩ := procAlloc_eq ha
    have hcurr : k₁.sys.curr = k.sys.curr := by
      rw [hk₁]
      rfl
    have hstatus : k₁.sys.status = Function.update k.sys.status c .uninit := by
      rw [hk₁]
      rfl
    have halloc : StillReady k.sys k₁.sys := .of_update hcurr hstatus fun hc => by
      rw [hst] at hc
      cases hc
    refine halloc.trans ?_
    exact .of_update (p := c) rfl rfl fun _ => rfl

theorem exit_still (hn : k.sys.status k.sys.curr ≠ .ready) (he : k.procMakezombie k.sys.curr v = some k') :
    StillReady k.sys k'.sys := by
  unfold procMakezombie at he
  obtain ⟨s, hs, he⟩ := Option.bind_eq_some_iff.1 he
  cases he
  have hdie : StillReady k.sys (k.sys.setStatus k.sys.curr .zombie) :=
    .of_update (p := k.sys.curr) rfl rfl fun hc => absurd hc hn
  refine hdie.trans ?_
  generalize (Kernel.pcb _ _).parent = parent at hs
  cases parent with
  | none =>
    cases hs
    exact .of_eq rfl rfl
  | some q => exact semV_still hs

theorem waitRest_still (he : k.waitRest = some k') : StillReady k.sys k'.sys := by
  unfold waitRest at he
  obtain ⟨z, hz, he⟩ := Option.bind_eq_some_iff.1 he
  obtain ⟨-, -, hst⟩ := procFindzombie_some hz
  cases he
  show StillReady k.sys (k.procFree z).sys
  unfold procFree
  rw [if_neg (by rw [hst]; decide)]
  exact .of_update (p := z) rfl rfl fun hc => by
    rw [hst] at hc
    cases hc

theorem sysWait_still (hn : k.sys.status k.sys.curr ≠ .ready) (he : k.sysWait = some (k', out)) :
    StillReady k.sys k'.sys := by
  unfold sysWait at he
  simp only at he
  split at he
  · cases he
    exact .of_eq rfl rfl
  · obtain ⟨s, hs, he⟩ := Option.bind_eq_some_iff.1 he
    obtain ⟨hstill, -⟩ := semP_still hn hs
    split at he
    · cases he
      exact hstill
    · obtain ⟨k₁, hk, he⟩ := Option.bind_eq_some_iff.1 he
      cases he
      exact hstill.trans (waitRest_still hk)

theorem sysSemOpen_still : StillReady k.sys (k.sysSemOpen v).sys := by
  unfold sysSemOpen
  simp only
  split
  · exact .of_eq rfl rfl
  · split
    · exact .of_eq rfl rfl
    · next u k₁ ha =>
      obtain ⟨w, -, hw⟩ := Option.map_eq_some_iff.1 ha
      cases hw
      exact .of_eq rfl rfl

theorem sysSemP_still {id : Int} (hn : k.sys.status k.sys.curr ≠ .ready) (he : k.sysSemP id = some (k', out)) :
    StillReady k.sys k'.sys := by
  unfold sysSemP at he
  simp only at he
  split at he
  · cases he
    exact .of_eq rfl rfl
  · obtain ⟨s, hs, he⟩ := Option.bind_eq_some_iff.1 he
    cases he
    exact (semP_still hn hs).1

theorem sysSemV_still {id : Int} (he : k.sysSemV id = some k') : StillReady k.sys k'.sys := by
  unfold sysSemV at he
  split at he
  · cases he
    exact .of_eq rfl rfl
  · obtain ⟨s, hs, he⟩ := Option.bind_eq_some_iff.1 he
    cases he
    exact semV_still hs

theorem sysSemClose_still {id : Int} : StillReady k.sys (k.sysSemClose id).sys := by
  unfold sysSemClose
  simp only
  split
  · exact .of_eq rfl rfl
  · exact .of_eq rfl rfl

theorem serialRead_still {got : List UInt8} (hn : k.sys.status k.sys.curr ≠ .ready)
    (he : serialRead n got k = some (k', out)) :
    StillReady k.sys k'.sys := by
  induction n generalizing k got with
  | zero =>
    cases he
    exact .of_eq rfl rfl
  | succ n ih =>
    unfold serialRead at he
    obtain ⟨s, hs, he⟩ := Option.bind_eq_some_iff.1 he
    obtain ⟨hstill, hn'⟩ := semP_still hn hs
    split at he
    · cases he
      exact hstill
    · obtain ⟨⟨ch, k₁⟩, hg, he⟩ := Option.bind_eq_some_iff.1 he
      obtain ⟨hsys, -⟩ := getcharRest_eq hg
      refine hstill.trans ?_
      simp only at he
      split at he
      · cases he
        exact .of_sys hsys
      · have hrest : StillReady k₁.sys k'.sys := ih (by rw [hsys]; exact hn') he
        rwa [hsys] at hrest

theorem serialV_still {l : List Nat} (hs : l.foldlM (fun s _ => s.semV .serial) s = some s') : StillReady s s' := by
  induction l generalizing s with
  | nil =>
    cases hs
    exact .of_eq rfl rfl
  | cons j l ih =>
    rw [List.foldlM_cons] at hs
    obtain ⟨s₁, h1, hs⟩ := Option.bind_eq_some_iff.1 hs
    exact (semV_still h1).trans (ih hs)

theorem pushBack_still {ch : UInt8} (he : k.pushBack ch = some k') : StillReady k.sys k'.sys := by
  unfold pushBack at he
  simp only at he
  split at he
  · obtain ⟨s, hs, hk⟩ := Option.bind_eq_some_iff.1 he
    cases hk
    exact serialV_still hs
  · cases he
    exact .of_eq rfl rfl

theorem serialHandle_still {l : List UInt8} (he : serialHandle l k = some k') : StillReady k.sys k'.sys := by
  induction l generalizing k with
  | nil =>
    cases he
    exact .of_eq rfl rfl
  | cons ch l ih =>
    unfold serialHandle at he
    split at he
    · exact ih he
    · split at he
      · cases he
        exact .of_eq rfl rfl
      · split at he
        · have hpop : StillReady k.popBack.2.sys k'.sys := ih he
          rwa [popBack_eq.1] at hpop
        · simp only [Option.bind_eq_bind] at he
          generalize (if ch = 13 then (10 : UInt8) else ch) = c at he
          split at he
          · obtain ⟨k₁, h1, he⟩ := Option.bind_eq_some_iff.1 he
            exact (pushBack_still h1).trans (ih he)
          · exact ih he

/-- No event takes the status READY away from anybody. -/
theorem handle_still (hn : k.sys.status k.sys.curr ≠ .ready) (he : k.handle e = some (k', out)) :
    StillReady k.sys k'.sys := by
  unfold handle at he
  cases e with
  | yield =>
    cases he
    exact yield_still
  | sleep ticks => exact sysSleep_still (Option.some.inj he)
  | fork =>
    cases he
    exact sysFork_still
  | exec =>
    cases he
    exact .of_eq rfl rfl
  | exit status =>
    obtain ⟨k₁, hk, he⟩ := Option.bind_eq_some_iff.1 he
    cases he
    exact exit_still hn hk
  | wait => exact sysWait_still hn he
  | semOpen value =>
    cases he
    exact sysSemOpen_still
  | semP id => exact sysSemP_still hn he
  | semV id =>
    obtain ⟨k₁, hk, he⟩ := Option.bind_eq_some_iff.1 he
    cases he
    exact sysSemV_still hk
  | semClose id =>
    cases he
    exact sysSemClose_still
  | read count => exact serialRead_still hn he
  | timer =>
    cases he
    exact .of_update (p := k.sys.curr) rfl rfl fun _ => rfl
  | serial bytes =>
    obtain ⟨k₁, hk, he⟩ := Option.bind_eq_some_iff.1 he
    cases he
    exact serialHandle_still hk
  | resume =>
    simp only at he
    cases hc : k.cont k.sys.curr with
    | user =>
      rw [hc] at he
      cases he
    | sleep cur ticks =>
      rw [hc] at he
      exact sysSleep_still (Option.some.inj he)
    | wait =>
      rw [hc] at he
      obtain ⟨k₁, hw, he⟩ := Option.bind_eq_some_iff.1 he
      cases he
      exact waitRest_still hw
    | read n got =>
      rw [hc] at he
      obtain ⟨⟨ch, k₁⟩, hg, he⟩ := Option.bind_eq_some_iff.1 he
      obtain ⟨hsys, -⟩ := getcharRest_eq hg
      simp only at he
      split at he
      · cases he
        exact .of_sys hsys
      · have hrest : StillReady k₁.sys k'.sys := serialRead_still (by rw [hsys]; exact hn) he
        rwa [hsys] at hrest

/-! ## From one call of `schedule` to the next -/

/-- The kernel when it is left: back in a program, or in front of `schedule`. -/
abbrev Point := Kernel × Out

/-- An event up to the end of its handler, or a call of `schedule` with the slot that it selects. -/
inductive Move : Point → Option Nat → Point → Prop
  | handle {k k' : Kernel} {e : Event} {out : Out} : k.may e → k.handle e = some (k', out) →
      Move (k, .back) none (k', out)
  | schedule {k k' : Kernel} : k.schedule = some k' → Move (k, .switch) (some k'.sys.curr) (k', .back)

/-- The slots that a run selects, in order. -/
def selected (l : List (Option Nat)) : List Nat := l.filterMap id

/-- A step of the kernel is one or two moves. -/
theorem step_moves (hs : Step k e k') : ∃ l, Run Move (k, .back) l (k', .back) := by
  unfold Step step at hs
  split at hs
  · next hm =>
    obtain ⟨⟨k₁, out⟩, hh, hs⟩ := Option.bind_eq_some_iff.1 hs
    simp only at hs
    cases out with
    | back =>
      rw [if_neg (by decide)] at hs
      cases hs
      exact ⟨_, .single (.handle hm hh)⟩
    | switch =>
      rw [if_pos rfl] at hs
      exact ⟨_, (Run.single (.handle hm hh)).append (.single (.schedule hs))⟩
  · cases hs

theorem run_moves {es : List Event} (hr : Run Step k es k') : ∃ l, Run Move (k, .back) l (k', .back) := by
  induction hr with
  | nil => exact ⟨[], .nil⟩
  | snoc _ hs ih =>
    obtain ⟨l, h1⟩ := ih
    obtain ⟨l', h2⟩ := step_moves hs
    exact ⟨l ++ l', h1.append h2⟩

/-- What holds of every point that the kernel reaches. -/
def Point.Inv (y : Point) : Prop := (∃ dom wait, Waits (fun _ => False) dom wait y.1) ∧ Left y.1 y.2

theorem Point.Inv.curr {y : Point} (h : y.Inv) : y.1.sys.curr < procNum := by
  obtain ⟨-, hl⟩ := h
  obtain ⟨k, out⟩ := y
  cases out with
  | back => exact Runs.curr hl
  | switch => exact Paused.curr hl

theorem move_inv {y z : Point} {o : Option Nat} (h : y.Inv) (hm : Move y o z) : z.Inv := by
  obtain ⟨⟨dom, wait, hw⟩, hl⟩ := h
  cases hm with
  | handle hmay hh =>
    obtain ⟨h1, h2, -⟩ := handle_done (G := fun _ => False) ⟨⟨dom, wait, hw⟩, hl⟩ hmay fits_none hh
    exact ⟨h1, h2⟩
  | schedule hs =>
    obtain ⟨r, -, hr, hlt, hsch, hrun⟩ := Paused.schedule hl
    rw [hsch] at hs
    cases hs
    exact ⟨⟨dom, wait, hw.schedule hr hlt⟩, hrun⟩

/-- `schedule` selects the READY process, or one that is closer to it than the one that ran. -/
theorem schedule_closer {y : Point} (h : y.Inv) (hy : y.2 = .switch) (hq : q < procNum)
    (hr : y.1.sys.status q = .ready) :
    ∃ r, y.1.schedule = some { y.1 with sys := y.1.sys.procRun r } ∧
    (r = q ∨ distance r q < distance y.1.sys.curr q) := by
  obtain ⟨k, out⟩ := y
  obtain rfl : out = .switch := hy
  obtain ⟨r, hsearch, -, -, hsch, -⟩ := Paused.schedule h.2
  exact ⟨r, hsch, search_closer hsearch h.curr hq hr⟩

/-- Each selection of another process takes at least one round from the distance. -/
structure Awaits (q : Nat) (l : List (Option Nat)) (y : Point) : Prop where
  inv : y.Inv
  ready : y.1.sys.status q = .ready
  closer : (selected l).length + distance y.1.sys.curr q ≤ procNum

theorem Awaits.move {y z : Point} {o : Option Nat} {l : List (Option Nat)} (h : Awaits q l y) (hq : q < procNum)
    (hm : Move y o z) (hne : o ≠ some q) : Awaits q (l ++ [o]) z := by
  have hinv := move_inv h.inv hm
  have hcloser := h.closer
  cases hm with
  | @handle k k' e out hmay hh =>
    have hl : Runs k := h.inv.2
    -- a handler selects nobody, and the process that runs in it is not READY
    have hstill := handle_still (by rw [hl.status]; decide) hh
    refine ⟨hinv, hstill.ready q h.ready, ?_⟩
    have hsel : selected (l ++ [none]) = selected l := by simp [selected]
    rw [hsel, hstill.curr]
    exact hcloser
  | @schedule k k' hs =>
    obtain ⟨r, hsch, hcase⟩ := schedule_closer h.inv rfl hq h.ready
    rw [hs] at hsch
    cases hsch
    have hrq : r ≠ q := fun hc => hne (congrArg some hc)
    have hless : distance r q < distance k.sys.curr q := hcase.resolve_left hrq
    refine ⟨hinv, ?_, ?_⟩
    · show Function.update k.sys.status r .running q = .ready
      rw [Function.update_of_ne (Ne.symm hrq)]
      exact h.ready
    · have hsel : (selected (l ++ [some r])).length = (selected l).length + 1 := by simp [selected]
      show (selected (l ++ [some r])).length + distance r q ≤ procNum
      simp only at hcloser
      omega

/-! ## Main result -/

/-- From any point at which the process in slot `q` is READY, and for as long as it is not selected: it stays READY, at
most `PROC_NUM - 1` other selections happen, and each call of `schedule` ends with `q` or a slot that is closer to
`q` than the one that ran before. -/
theorem bounded_bypass {k₀ : Kernel} {es l : List (Option Nat)} {y z : Point} (hb : boot = some k₀)
    (hy : Run Move (k₀, .back) es y) (hq : q < procNum) (hr : y.1.sys.status q = .ready) (hz : Run Move y l z)
    (hnot : some q ∉ l) :
    z.1.sys.status q = .ready ∧ (selected l).length ≤ procNum - 1 ∧
      (z.2 = .switch → ∃ r, z.1.schedule = some { z.1 with sys := z.1.sys.procRun r } ∧
        (r = q ∨ distance r q < distance z.1.sys.curr q)) := by
  have hstart : Point.Inv (k₀, .back) := by
    obtain ⟨k, h1, hI⟩ := boot_inv fun _ => False
    obtain rfl := Option.some.inj (hb.symm.trans h1)
    exact hI
  have hinv : y.Inv := Run.invariant (I := Point.Inv) (fun _ _ _ h hm => move_inv h hm) hy hstart
  have hwait : some q ∉ l → Awaits q l z := by
    refine Run.invariant_log (I := fun l z => some q ∉ l → Awaits q l z) ?_ hz ?_
    · intro l y o z ih hm hnot
      rw [List.mem_append, List.mem_singleton, not_or] at hnot
      exact (ih hnot.1).move hq hm (Ne.symm hnot.2)
    · intro _
      refine ⟨hinv, hr, ?_⟩
      show 0 + distance y.1.sys.curr q ≤ procNum
      rw [Nat.zero_add]
      exact distance_le
  obtain ⟨h1, h2, h3⟩ := hwait hnot
  refine ⟨h2, ?_, fun hsw => schedule_closer h1 hsw hq h2⟩
  have hpos : 1 ≤ distance z.1.sys.curr q := Nat.le_add_left 1 _
  omega

/-- Process 1 forks and yields, while process 2 is READY. -/
theorem bounded_bypass_demo : ∃ (k₀ k : Kernel) (z : Point) (r : Nat), boot = some k₀ ∧ Run Step k₀ [.timer, .fork] k ∧
    Run Move (k, .back) [none] z ∧ z.1.schedule = some { z.1 with sys := z.1.sys.procRun r } ∧
      (r = 2 ∨ distance r 2 < distance z.1.sys.curr 2) := by
  have hev : (boot.bind fun k₀ => [Event.timer, .fork].foldlM step k₀).any
      (fun k => decide (k.sys.status 2 = .ready ∧ k.may .yield)) = true := by decide +kernel
  obtain ⟨k, hk, hst⟩ := (Option.any_eq_true _ _).1 hev
  obtain ⟨k₀, hb, hk⟩ := Option.bind_eq_some_iff.1 hk
  obtain ⟨hr, hm⟩ := of_decide_eq_true hst
  have hrun : Run Step k₀ [.timer, .fork] k := Run.of_foldlM hk
  obtain ⟨es, hy⟩ := run_moves hrun
  have hz : Run Move (k, .back) [none] (k.sysYield, .switch) := .single (.handle hm rfl)
  obtain ⟨-, -, h⟩ := bounded_bypass hb hy (q := 2) (by decide) hr hz (by simp)
  obtain ⟨r, h1, h2⟩ := h rfl
  exact ⟨k₀, k, _, r, hb, hrun, hz, h1, h2⟩

end TinyOS.Kernel
