/-
Which child is handed over to whom, by pid: no process twice, each to the one that forked it, and with
the code that it gave to `exit`.
-/
import TinyOS.Proc.Family

namespace TinyOS.Kernel

open TinyOS.Lib TinyOS.Klib

variable {k k' : Kernel} {q c : Nat} {s : Sys Sema} {e : Event} {out : Out}

/-! ## Pids -/

/-- One of the first `n` numbers that `next_pid` went through. -/
def Issued (n : Nat) (c : Int) : Prop := ∃ m < n, c = int32 (m : Nat)

theorem int32_emod (m : Nat) (hm : m < 2 ^ 32) : int32 (m : Nat) % 2 ^ 32 = m := by
  have h : Int.bmod (m : Int) (2 ^ 32) % ((2 ^ 32 : Nat) : Int) = (m : Int) % ((2 ^ 32 : Nat) : Int) := Int.bmod_emod
  have h2 : ((2 ^ 32 : Nat) : Int) = 2 ^ 32 := by norm_num
  rw [h2] at h
  unfold int32
  rw [h]
  omega

theorem Issued.mono {n n' : Nat} {v : Int} (h : Issued n v) (hn : n ≤ n') : Issued n' v := by
  obtain ⟨m, hm, hv⟩ := h
  exact ⟨m, by omega, hv⟩

theorem Issued.fresh {n : Nat} {v : Int} (h : Issued n v) (hn : n < 2 ^ 32) : v ≠ int32 (n : Nat) := by
  obtain ⟨m, hm, hv⟩ := h
  intro hc
  have h1 := int32_emod m (hm.trans hn)
  have h2 := int32_emod n hn
  rw [← hv, hc, h2] at h1
  omega

theorem Issued.ne {n : Nat} {v : Int} (h : Issued n v) (hn : n < 2 ^ 32) : v ≠ -1 := by
  obtain ⟨m, hm, hv⟩ := h
  intro hc
  have h1 := int32_emod m (hm.trans hn)
  rw [← hv, hc] at h1
  omega

/-! ## Who was handed over -/

/-- The process that a `fork` makes, behind its parent. -/
def forks (k : Kernel) : Event → List (Int × Int)
  | .fork => k.procAlloc.elim [] fun _ => [((k.pcb k.sys.curr).pid, (k.sysFork.reply k.sys.curr).eax)]
  | _ => []

/-- The process that an `exit` ends, with its exit code. -/
def exits (k : Kernel) : Event → List (Int × Int)
  | .exit status => [((k.pcb k.sys.curr).pid, int32 status)]
  | _ => []

/-- What a call gives its caller when it returns in an event, unless that is -1. -/
def returned (k : Kernel) (e : Event) : List (Int × Int × Int) :=
  match k.handle e with
  | some (k', .back) =>
    if (k'.reply k.sys.curr).eax = -1 then []
    else [((k.pcb k.sys.curr).pid, (k'.reply k.sys.curr).eax, (k'.reply k.sys.curr).status)]
  | _ => []

/-- The `wait` that returns a child in an event: the caller, the child, and what `*status` holds. -/
def waits (k : Kernel) : Event → List (Int × Int × Int)
  | .wait => k.returned .wait
  | .resume => if k.cont k.sys.curr = .wait then k.returned .resume else []
  | _ => []

/-- A kernel, with all processes that were made, that ended and that were handed over, by their pids. -/
structure Record where
  kernel : Kernel
  forks : List (Int × Int)
  exits : List (Int × Int)
  waits : List (Int × Int × Int)

def Record.note (r : Record) (e : Event) : Option Record :=
  (r.kernel.step e).map fun k => ⟨k, r.forks ++ r.kernel.forks e, r.exits ++ r.kernel.exits e,
    r.waits ++ r.kernel.waits e⟩

def Noted (r : Record) (e : Event) (r' : Record) : Prop := r.note e = some r'

/-- Pids name processes, and a child that was handed over was forked by the caller, has exited and is gone. -/
structure Ledger (k : Kernel) (forks exits : List (Int × Int)) (waits : List (Int × Int × Int)) : Prop where
  next : k.nextPid = int32 ((2 + forks.length : Nat) : Int)
  issued : ∀ q < procNum, k.sys.status q ≠ .unused → Issued (2 + forks.length) (k.pcb q).pid
  inj : ∀ q < procNum, ∀ i < procNum, k.sys.status q ≠ .unused → k.sys.status i ≠ .unused →
    (k.pcb q).pid = (k.pcb i).pid → q = i
  forked : ∀ x ∈ forks, Issued (2 + forks.length) x.2
  forksNodup : (forks.map Prod.snd).Nodup
  parent : ∀ q p, k.sys.status q ≠ .unused → (k.pcb q).parent = some p → ((k.pcb p).pid, (k.pcb q).pid) ∈ forks
  exited : ∀ x ∈ exits, Issued (2 + forks.length) x.1
  exitsNodup : (exits.map Prod.fst).Nodup
  live : ∀ q < procNum, Live k.sys q → ∀ x ∈ exits, x.1 ≠ (k.pcb q).pid
  zombie : ∀ q < procNum, k.sys.status q = .zombie → ((k.pcb q).pid, (k.pcb q).exitCode) ∈ exits
  waited : ∀ x ∈ waits, (x.1, x.2.1) ∈ forks ∧ (x.2.1, x.2.2) ∈ exits
  waitsNodup : (waits.map fun x => x.2.1).Nodup
  gone : ∀ x ∈ waits, ∀ q < procNum, k.sys.status q ≠ .unused → (k.pcb q).pid ≠ x.2.1

section

variable {f x : List (Int × Int)} {w : List (Int × Int × Int)}

theorem Ledger.calm (h : Ledger k f x w) (hc : Calm k k') : Ledger k' f x w := by
  have hpid : ∀ q, (k'.pcb q).pid = (k.pcb q).pid := fun q => (hc.pcb q).2.1
  have hun : ∀ {q}, k'.sys.status q ≠ .unused → k.sys.status q ≠ .unused := fun {q} hq hk => hq ((hc.unused q).2 hk)
  refine ⟨hc.nextPid.trans h.next, fun q hq hs => ?_, fun q hq i hi h1 h2 h3 => ?_, h.forked, h.forksNodup,
    fun q p hq hp => ?_,
    h.exited, h.exitsNodup, fun q hq hl => ?_, fun q hq hz => ?_, h.waited, h.waitsNodup, fun y hy q hq hs => ?_⟩
  · rw [hpid]
    exact h.issued q hq (hun hs)
  · rw [hpid, hpid] at h3
    exact h.inj q hq i hi (hun h1) (hun h2) h3
  · rw [(hc.pcb q).1] at hp
    rw [hpid, hpid]
    exact h.parent q p (hun hq) hp
  · rw [hpid]
    exact h.live q hq ⟨hun hl.1, fun hz => hl.2 ((hc.zombie q).2 hz)⟩
  · rw [hpid, (hc.pcb q).2.2]
    exact h.zombie q hq ((hc.zombie q).1 hz)
  · rw [hpid]
    exact h.gone y hy q hq (hun hs)

theorem Ledger.fork (h : Ledger k f x w) (hn : 2 + f.length < 2 ^ 32) (he : Even k) (hf : Forked k c k') :
    Ledger k' (f ++ [((k.pcb k.sys.curr).pid, k.nextPid)]) x w := by
  have hlen : 2 + (f ++ [((k.pcb k.sys.curr).pid, k.nextPid)]).length = 2 + f.length + 1 := by
    rw [List.length_append]
    rfl
  have hnew : (k'.pcb c).pid = k.nextPid := by rw [hf.pid, if_pos rfl]
  have hpid : ∀ {q}, q ≠ c → (k'.pcb q).pid = (k.pcb q).pid := fun {q} hq => by rw [hf.pid, if_neg hq]
  have hst : ∀ {q}, q ≠ c → k'.sys.status q = k.sys.status q := fun {q} hq => by rw [hf.status_apply, if_neg hq]
  -- the pid of the new process was given to nobody
  have hfresh : ∀ {v}, Issued (2 + f.length) v → v ≠ k.nextPid := fun {v} hv => by
    rw [h.next]
    exact hv.fresh hn
  have hissued : Issued (2 + f.length + 1) k.nextPid := ⟨2 + f.length, by omega, h.next⟩
  have hup : ∀ {v}, Issued (2 + f.length) v → Issued (2 + f.length + 1) v := fun hv => hv.mono (by omega)
  have hnone : ∀ q, (k.pcb q).parent ≠ some c := fun q hq => hf.dead (he.parent q c hq).2.2
  refine ⟨?_, fun q hq hs => ?_, fun q hq i hi h1 h2 h3 => ?_, fun y hy => ?_, ?_, fun q p hq hp => ?_, fun y hy => ?_,
    h.exitsNodup, fun q hq hl y hy => ?_, fun q hq hz => ?_, fun y hy => ?_, h.waitsNodup, fun y hy q hq hs => ?_⟩
  · rw [hf.nextPid, hlen, h.next]
    unfold int32
    rw [Int.bmod_add_bmod]
    push_cast
    rfl
  · rw [hlen]
    by_cases hqc : q = c
    · rw [hqc, hnew]
      exact hissued
    · rw [hpid hqc]
      exact hup (h.issued q hq (hst hqc ▸ hs))
  · by_cases hqc : q = c
    · by_cases hic : i = c
      · rw [hqc, hic]
      · rw [hqc, hnew, hpid hic] at h3
        exact absurd h3.symm (hfresh (h.issued i hi (hst hic ▸ h2)))
    · by_cases hic : i = c
      · rw [hic, hnew, hpid hqc] at h3
        exact absurd h3 (hfresh (h.issued q hq (hst hqc ▸ h1)))
      · rw [hpid hqc, hpid hic] at h3
        exact h.inj q hq i hi (hst hqc ▸ h1) (hst hic ▸ h2) h3
  · rw [hlen]
    rcases List.mem_append.1 hy with hy | hy
    · exact hup (h.forked y hy)
    · rw [List.mem_singleton.1 hy]
      exact hissued
  · rw [List.map_append, List.map_singleton]
    refine List.Nodup.append h.forksNodup (List.nodup_singleton _) fun v hv hv' => ?_
    obtain ⟨y, hy, rfl⟩ := List.mem_map.1 hv
    exact hfresh (h.forked y hy) (List.mem_singleton.1 hv')
  · rw [hf.parent] at hp
    by_cases hqc : q = c
    · rw [if_pos hqc] at hp
      cases hp
      rw [hqc, hnew, hpid hf.ne.symm]
      exact List.mem_append_right _ (List.mem_singleton_self _)
    · rw [if_neg hqc] at hp
      have hpc : p ≠ c := fun hc => hnone q (hc ▸ hp)
      rw [hpid hqc, hpid hpc]
      exact List.mem_append_left _ (h.parent q p (hst hqc ▸ hq) hp)
  · rw [hlen]
    exact hup (h.exited y hy)
  · by_cases hqc : q = c
    · rw [hqc, hnew]
      exact hfresh (h.exited y hy)
    · rw [hpid hqc]
      exact h.live q hq ((hf.live.1 hl).resolve_left hqc) y hy
  · have hqc : q ≠ c := fun hc => by
      rw [hf.status_apply, if_pos hc] at hz
      cases hz
    rw [hpid hqc, hf.exitCode]
    exact h.zombie q hq (hst hqc ▸ hz)
  · exact ⟨List.mem_append_left _ (h.waited y hy).1, (h.waited y hy).2⟩
  · by_cases hqc : q = c
    · rw [hqc, hnew]
      exact (hfresh (h.forked _ (h.waited y hy).1)).symm
    · rw [hpid hqc]
      exact h.gone y hy q hq (hst hqc ▸ hs)

theorem Ledger.exit {v : Int} (h : Ledger k f x w) (hr : Runs k) (he : Exited k v k') :
    Ledger k' f (x ++ [((k.pcb k.sys.curr).pid, v)]) w := by
  have hlive : Live k.sys k.sys.curr := hr.live
  have hun : ∀ {q}, k'.sys.status q ≠ .unused → k.sys.status q ≠ .unused := fun {q} hq hk => hq ((he.unused q).2 hk)
  refine ⟨he.nextPid.trans h.next, fun q hq hs => ?_, fun q hq i hi h1 h2 h3 => ?_, h.forked, h.forksNodup,
    fun q p hq hp => ?_,
    fun y hy => ?_, ?_, fun q hq hl y hy => ?_, fun q hq hz => ?_, fun y hy => ?_, h.waitsNodup, fun y hy q hq hs => ?_⟩
  · rw [he.pid]
    exact h.issued q hq (hun hs)
  · rw [he.pid, he.pid] at h3
    exact h.inj q hq i hi (hun h1) (hun h2) h3
  · rw [he.parent] at hp
    split at hp
    · cases hp
    · rw [he.pid, he.pid]
      exact h.parent q p (hun hq) hp
  · rcases List.mem_append.1 hy with hy | hy
    · exact h.exited y hy
    · rw [List.mem_singleton.1 hy]
      exact h.issued _ hr.curr hlive.1
  · rw [List.map_append, List.map_singleton]
    refine List.Nodup.append h.exitsNodup (List.nodup_singleton _) fun v hv hv' => ?_
    obtain ⟨y, hy, rfl⟩ := List.mem_map.1 hv
    exact h.live _ hr.curr hlive y hy (List.mem_singleton.1 hv')
  · obtain ⟨hqc, hlq⟩ := he.live.1 hl
    rw [he.pid]
    rcases List.mem_append.1 hy with hy | hy
    · exact h.live q hq hlq y hy
    · rw [List.mem_singleton.1 hy]
      exact fun hc => hqc (h.inj q hq _ hr.curr hlq.1 hlive.1 hc.symm)
  · rw [he.pid, he.exitCode]
    by_cases hqc : q = k.sys.curr
    · rw [if_pos hqc, hqc]
      exact List.mem_append_right _ (List.mem_singleton_self _)
    · rw [if_neg hqc]
      exact List.mem_append_left _ (h.zombie q hq (((he.zombie q).1 hz).resolve_left hqc))
  · exact ⟨(h.waited y hy).1, List.mem_append_left _ (h.waited y hy).2⟩
  · rw [he.pid]
    exact h.gone y hy q hq (hun hs)

theorem Ledger.collect {z : Nat} (h : Ledger k f x w) (hw : Waited k z k') :
    Ledger k' f x (w ++ [((k.pcb k.sys.curr).pid, (k.pcb z).pid, (k.pcb z).exitCode)]) := by
  -- the PCB that is freed was the only one with that pid
  obtain ⟨hz, hpar, hzom⟩ := mem_zombies.1 hw.mem
  have hnz : k.sys.status z ≠ .unused := by rw [hzom]; decide
  have hne : ∀ {q}, k'.sys.status q ≠ .unused → q ≠ z := fun {q} hq hc => hq (by rw [hw.status_apply, if_pos hc])
  have hst : ∀ {q}, q ≠ z → k'.sys.status q = k.sys.status q := fun {q} hq => by rw [hw.status_apply, if_neg hq]
  have hpid : ∀ q, (k'.pcb q).pid = (k.pcb q).pid := fun q => (hw.pcb q).2.1
  have hun : ∀ {q}, k'.sys.status q ≠ .unused → k.sys.status q ≠ .unused := fun {q} hq => hst (hne hq) ▸ hq
  refine ⟨hw.nextPid.trans h.next, fun q hq hs => ?_, fun q hq i hi h1 h2 h3 => ?_, h.forked, h.forksNodup,
    fun q p hq hp => ?_,
    h.exited, h.exitsNodup, fun q hq hl => ?_, fun q hq hz' => ?_, fun y hy => ?_, ?_, fun y hy q hq hs => ?_⟩
  · rw [hpid]
    exact h.issued q hq (hun hs)
  · rw [hpid, hpid] at h3
    exact h.inj q hq i hi (hun h1) (hun h2) h3
  · rw [(hw.pcb q).1] at hp
    rw [hpid, hpid]
    exact h.parent q p (hun hq) hp
  · rw [hpid]
    exact h.live q hq (hw.live.1 hl)
  · have hq' := hne (q := q) (by rw [hz']; decide)
    rw [hpid, (hw.pcb q).2.2]
    exact h.zombie q hq (hst hq' ▸ hz')
  · rcases List.mem_append.1 hy with hy | hy
    · exact h.waited y hy
    · rw [List.mem_singleton.1 hy]
      exact ⟨h.parent z _ hnz hpar, h.zombie z hz hzom⟩
  · rw [List.map_append, List.map_singleton]
    refine List.Nodup.append h.waitsNodup (List.nodup_singleton _) fun v hv hv' => ?_
    obtain ⟨y, hy, rfl⟩ := List.mem_map.1 hv
    exact h.gone y hy z hz hnz (List.mem_singleton.1 hv').symm
  · rw [hpid]
    rcases List.mem_append.1 hy with hy | hy
    · exact h.gone y hy q hq (hun hs)
    · rw [List.mem_singleton.1 hy]
      exact fun hc => hne hs (h.inj q hq z hz (hun hs) hnz hc)

end

def Kept (r : Record) : Prop :=
  Family r.kernel ∧ (r.forks.length < 2 ^ 31 → Ledger r.kernel r.forks r.exits r.waits)

theorem returned_back (h : k.handle e = some (k', .back)) (hn : (k'.reply k.sys.curr).eax ≠ -1) :
    k.returned e = [((k.pcb k.sys.curr).pid, (k'.reply k.sys.curr).eax, (k'.reply k.sys.curr).status)] := by
  unfold returned
  rw [h]
  exact if_neg hn

theorem noted_kept {r r' : Record} (h : Kept r) (hn : Noted r e r') : Kept r' := by
  obtain ⟨hF, hL⟩ := h
  obtain ⟨k', hs, rfl⟩ := Option.map_eq_some_iff.1 hn
  have hs : Step r.kernel e k' := hs
  refine ⟨step_family hF hs, fun hlen => ?_⟩
  have hlen' : r.forks.length < 2 ^ 31 := by
    rw [List.length_append] at hlen
    omega
  have hled := hL hlen'
  obtain ⟨hm, k₁, out, hh, hch, hk⟩ := step_change hF hs
  suffices Ledger k₁ (r.forks ++ r.kernel.forks e) (r.exits ++ r.kernel.exits e) (r.waits ++ r.kernel.waits e) from
    this.calm hk.calm
  cases hch with
  | calm _ _ _ hc _ hx hf hre hw =>
    have hforks : r.kernel.forks e = [] := by
      cases e with
      | fork =>
        unfold forks
        rw [hf rfl]
        rfl
      | _ => rfl
    have hexits : r.kernel.exits e = [] := by
      cases e with
      | exit status => exact absurd rfl (hx status)
      | _ => rfl
    have hwaits : r.kernel.waits e = [] := by
      cases e with
      | wait =>
        show r.kernel.returned .wait = []
        unfold returned
        rw [hh]
        rcases hw rfl with ⟨rfl, -⟩ | ⟨rfl, -, heax⟩
        · rfl
        · exact if_pos heax
      | resume => exact if_neg (hre rfl)
      | _ => rfl
    rw [hforks, hexits, hwaits, List.append_nil, List.append_nil, List.append_nil]
    exact hled.calm hc
  | fork c k₂ _ ha hk' hfk =>
    have hforks : r.kernel.forks .fork = [((r.kernel.pcb r.kernel.sys.curr).pid, r.kernel.nextPid)] := by
      unfold forks
      rw [ha, Option.elim_some, ← hk', hfk.reply]
    rw [hforks]
    show Ledger k₁ _ (r.exits ++ []) (r.waits ++ [])
    rw [List.append_nil, List.append_nil]
    exact hled.fork (by omega) hF.even hfk
  | exit v _ hx =>
    show Ledger k₁ (r.forks ++ []) (r.exits ++ [_]) (r.waits ++ [])
    rw [List.append_nil, List.append_nil]
    exact hled.exit hF.inv.2 hx
  | wait _ k₂ z _ hor hc _ hcurr _ _ hw =>
    have hled₂ := hled.calm hc
    obtain ⟨hz, -, hzom⟩ := mem_zombies.1 hw.mem
    have hne : (k₁.reply r.kernel.sys.curr).eax ≠ -1 := by
      rw [← hcurr, hw.reply]
      exact (hled₂.issued z hz (by rw [hzom]; decide)).ne (by omega)
    have hforks : r.kernel.forks e = [] := by
      rcases hor with rfl | ⟨rfl, -⟩
      · rfl
      · rfl
    have hexits : r.kernel.exits e = [] := by
      rcases hor with rfl | ⟨rfl, -⟩
      · rfl
      · rfl
    have hwaits : r.kernel.waits e = r.kernel.returned e := by
      rcases hor with rfl | ⟨rfl, hcont⟩
      · rfl
      · exact if_pos hcont
    have := hled₂.collect hw
    rw [hforks, hexits, hwaits, List.append_nil, List.append_nil, returned_back hh hne, ← hcurr,
      hw.reply, ← (hc.pcb _).2.1]
    exact this

theorem boot_kept (hb : boot = some k) : Kept ⟨k, [], [], []⟩ := by
  have hF := boot_family hb
  refine ⟨hF, fun _ => ?_⟩
  obtain ⟨c, hc, hst, hpcb, -, -, hnext⟩ := boot_eq hb
  have hlive : ∀ q, k.sys.status q ≠ .unused → q = c ∨ q = 0 := fun q hq => by
    rw [hst] at hq
    by_contra hne
    rw [not_or] at hne
    rw [if_neg hne.1, if_neg hne.2] at hq
    exact hq rfl
  have hpid : ∀ q, (k.pcb q).pid = if q = c then 1 else 0 := fun q => (hpcb q).2.2
  show Ledger k [] [] []
  refine ⟨?_, fun q _ _ => ?_, fun q _ i _ h1 h2 h3 => ?_, fun y hy => ?_, List.nodup_nil, fun q p _ hp => ?_,
    fun y hy => ?_,
    List.nodup_nil, fun q _ _ y hy => ?_, fun q _ hz => ?_, fun y hy => ?_, List.nodup_nil, fun y hy => ?_⟩
  · rw [hnext]
    decide
  · rw [hpid]
    split
    · exact ⟨1, by decide, by decide⟩
    · exact ⟨0, by decide, by decide⟩
  · rw [hpid, hpid] at h3
    rcases hlive q h1 with hq | hq
    · rcases hlive i h2 with hi | hi
      · rw [hq, hi]
      · rw [if_pos hq, if_neg (by omega)] at h3
        cases h3
    · rcases hlive i h2 with hi | hi
      · rw [if_pos hi, if_neg (by omega)] at h3
        cases h3
      · rw [hq, hi]
  · cases hy
  · rw [(hpcb q).1] at hp
    cases hp
  · cases hy
  · cases hy
  · rw [hst] at hz
    split at hz
    · cases hz
    · split at hz
      · cases hz
      · cases hz
  · cases hy
  · cases hy

theorem Ledger.waits_le {f x : List (Int × Int)} {w : List (Int × Int × Int)} (h : Ledger k f x w) (v : Int) :
    (w.filter fun y => y.1 = v).length ≤ (x.filter fun y => (v, y.1) ∈ f).length := by
  have hnodup : ((w.filter fun y => y.1 = v).map fun y => y.2.1).Nodup :=
    (List.filter_sublist.map _).nodup h.waitsNodup
  have hsub : ((w.filter fun y => y.1 = v).map fun y => y.2.1) ⊆ (x.filter fun y => (v, y.1) ∈ f).map Prod.fst := by
    intro i hi
    obtain ⟨y, hy, rfl⟩ := List.mem_map.1 hi
    obtain ⟨hy, hv⟩ := List.mem_filter.1 hy
    obtain ⟨h1, h2⟩ := h.waited y hy
    rw [of_decide_eq_true hv] at h1
    exact List.mem_map.2 ⟨(y.2.1, y.2.2), List.mem_filter.2 ⟨h2, decide_eq_true h1⟩, rfl⟩
  have := (hnodup.subperm hsub).length_le
  rwa [List.length_map, List.length_map] at this

/-- The zombie that a `wait` looks for with its unit is there. -/
theorem sysWait_find (h : Family k) (hc : k.cont k.sys.curr = .user) (h0 : k.sys.curr ≠ 0)
    (hs : k.sys.semP (.zombie k.sys.curr) = some s) (hb : s.status k.sys.curr ≠ .blocked) :
    ∃ z, Kernel.procFindzombie { k with sys := s } k.sys.curr = some z := by
  have hr := h.inv.2
  have he := semP_even h.even hr (by rw [hc]; simp) hs
  have hcurr : s.curr = k.sys.curr := semP_curr hs
  obtain ⟨hst, hv⟩ : s.status = k.sys.status ∧ 0 ≤ s.value (.zombie k.sys.curr) := by
    rcases Sys.semP_cases hs with ⟨hv, rfl⟩ | ⟨-, l, -, rfl⟩
    · refine ⟨rfl, ?_⟩
      show 0 ≤ Function.update k.sys.value _ _ _
      rw [Function.update_self]
      exact hv
    · exact absurd (Function.update_self ..) hb
  have hr₁ : Runs ({ k with sys := s }.setCont k.sys.curr .wait) := hr.congr hcurr hst (by
    show Function.update k.cont k.sys.curr .wait 0 = .user
    rw [Function.update_of_ne h0.symm]
    exact hr.cont)
  obtain ⟨z, hz⟩ := he.find hr₁ (by rw [← hcurr] at hv; exact hv) (by
    show Function.update k.cont k.sys.curr .wait s.curr = .wait
    rw [hcurr, Function.update_self])
  refine ⟨z, ?_⟩
  rw [← hcurr]
  exact hz

/-- A `wait` that is called, or goes on, in a state that the kernel reaches. -/
theorem wait_returns (h : Family k) (hn : ∀ q < procNum, k.sys.status q ≠ .unused → (k.pcb q).pid ≠ -1) (hm : k.may e)
    (hor : e = .wait ∨ e = .resume ∧ k.cont k.sys.curr = .wait) (he : k.handle e = some (k', out)) :
    (out = .back ∧ (k'.reply k.sys.curr).eax = -1 ↔ k.children k.sys.curr = ∅) ∧
      (k.children k.sys.curr ≠ ∅ → (out = .switch ∧ e = .wait) ∨ ∃ z ∈ k.zombies k.sys.curr, out = .back ∧
        k'.reply k.sys.curr = ⟨(k.pcb z).pid, (k.pcb z).exitCode, []⟩ ∧ k'.sys.status z = .unused) := by
  have hch := handle_change h hm he
  cases hch with
  | calm _ _ _ hc _ _ _ hre hw =>
    obtain rfl : e = .wait := hor.resolve_right fun hc => hre hc.1 hc.2
    rcases hw rfl with ⟨rfl, hne⟩ | ⟨rfl, hempty, heax⟩
    · exact ⟨iff_of_false (fun hx => by cases hx.1) hne.ne_empty, fun _ => Or.inl ⟨rfl, rfl⟩⟩
    · exact ⟨iff_of_true ⟨rfl, heax⟩ hempty, fun hne => absurd hempty hne⟩
  | fork => exact absurd hor (by simp)
  | exit => exact absurd hor (by simp)
  | wait _ k₁ z _ _ hc _ hcurr _ _ hw =>
    obtain ⟨hz, hpar, hzom⟩ := mem_zombies.1 hw.mem
    rw [hcurr, (hc.pcb z).1] at hpar
    have hzom' := (hc.zombie z).1 hzom
    have hnz : k.sys.status z ≠ .unused := by rw [hzom']; decide
    have hrep := hw.reply
    rw [hcurr, (hc.pcb z).2.1, (hc.pcb z).2.2] at hrep
    have hmem : z ∈ k.children k.sys.curr := mem_children.2 ⟨hz, hpar, hnz⟩
    refine ⟨iff_of_false (fun hx => ?_) (Finset.ne_empty_of_mem hmem), fun _ =>
      Or.inr ⟨z, mem_zombies.2 ⟨hz, hpar, hzom'⟩, rfl, hrep, by rw [hw.status_apply, if_pos rfl]⟩⟩
    rw [hrep] at hx
    exact hn z hz hnz hx.2

/-- As long as there were fewer than 2^31 forks: `child_num` of a live process is the number of its children;
`wait` returns -1 where there are none and otherwise blocks or returns pid and exit code of a zombie child,
which it frees; the zombie is always found. No process is handed over twice, each goes to the process that
forked it with the code it gave to `exit`, and nobody is given more children than have exited. -/
theorem children_waited {k₀ : Kernel} {es : List Event} {r : Record} (hb : boot = some k₀)
    (hrun : Run Noted ⟨k₀, [], [], []⟩ es r) (hn : r.forks.length < 2 ^ 31) :
    (∀ p < procNum, Live r.kernel.sys p → (r.kernel.pcb p).childNum = (r.kernel.children p).card) ∧
    (∀ e k' out, r.kernel.may e → (e = .wait ∨ e = .resume ∧ r.kernel.cont r.kernel.sys.curr = .wait) →
      r.kernel.handle e = some (k', out) →
      (out = .back ∧ (k'.reply r.kernel.sys.curr).eax = -1 ↔ r.kernel.children r.kernel.sys.curr = ∅) ∧
      (r.kernel.children r.kernel.sys.curr ≠ ∅ → (out = .switch ∧ e = .wait) ∨
        ∃ z ∈ r.kernel.zombies r.kernel.sys.curr, out = .back ∧
          k'.reply r.kernel.sys.curr = ⟨(r.kernel.pcb z).pid, (r.kernel.pcb z).exitCode, []⟩ ∧
          k'.sys.status z = .unused)) ∧
    (r.kernel.may .wait → ∀ s, r.kernel.sys.semP (.zombie r.kernel.sys.curr) = some s →
      s.status r.kernel.sys.curr ≠ .blocked →
      ∃ z, Kernel.procFindzombie { r.kernel with sys := s } r.kernel.sys.curr = some z) ∧
    (r.kernel.cont r.kernel.sys.curr = .wait → ∃ z, r.kernel.procFindzombie r.kernel.sys.curr = some z) ∧
    (r.forks.map Prod.snd).Nodup ∧ (r.exits.map Prod.fst).Nodup ∧ (r.waits.map fun x => x.2.1).Nodup ∧
    (∀ x ∈ r.waits, (x.1, x.2.1) ∈ r.forks ∧ (x.2.1, x.2.2) ∈ r.exits) ∧
    ∀ v, (r.waits.filter fun x => x.1 = v).length ≤ (r.exits.filter fun x => (v, x.1) ∈ r.forks).length := by
  obtain ⟨hF, hL⟩ : Kept r := Run.invariant (I := Kept) (fun _ _ _ hs hst => noted_kept hs hst) hrun (boot_kept hb)
  have hled := hL hn
  refine ⟨hF.even.count, fun e k' out hm hor he => wait_returns hF (fun q hq hs => ?_) hm hor he, fun hm s hs hst => ?_,
    fun hc => ?_, hled.forksNodup, hled.exitsNodup, hled.waitsNodup, hled.waited, hled.waits_le⟩
  · exact (hled.issued q hq hs).ne (by omega)
  · exact sysWait_find hF (of_decide_eq_true hm).1 (of_decide_eq_true hm).2 hs hst
  · obtain ⟨⟨dom, wait, hw⟩, hr⟩ := hF.inv
    exact hF.even.find hr (hw.zombie_nonneg hr) hc

theorem children_waited_demo : ∃ k₀ r, boot = some k₀ ∧
    Run Noted ⟨k₀, [], [], []⟩ [.timer, .fork, .wait, .exit 7, .timer, .resume] r ∧ r.waits = [(1, 2, 7)] ∧
      (1, 2) ∈ r.forks ∧ (2, 7) ∈ r.exits := by
  have hev : (boot.bind fun k₀ => ([Event.timer, .fork, .wait, .exit 7, .timer, .resume].foldlM Record.note
    ⟨k₀, [], [], []⟩)).any
      (fun r => decide (r.waits = [(1, 2, 7)] ∧ r.forks.length < 2 ^ 31)) = true := by decide +kernel
  obtain ⟨r, hk, hr⟩ := (Option.any_eq_true _ _).1 hev
  obtain ⟨k₀, hb, hk⟩ := Option.bind_eq_some_iff.1 hk
  obtain ⟨h1, h2⟩ := of_decide_eq_true hr
  have hrun : Run Noted ⟨k₀, [], [], []⟩ _ r := Run.of_foldlM hk
  obtain ⟨-, -, -, -, -, -, -, h3, -⟩ := children_waited hb hrun h2
  exact ⟨k₀, r, hb, hrun, h1, h3 (1, 2, 7) (by rw [h1]; exact List.mem_singleton_self _)⟩

end TinyOS.Kernel
