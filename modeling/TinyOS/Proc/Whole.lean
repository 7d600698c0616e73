/-
The whole system: its files and its processes in one run. A process has descriptors and a working
directory exactly as long as it lives, and all reference counts are exact.
-/
import TinyOS.Proc.Counts
import TinyOS.Proc.Family

namespace TinyOS

open TinyOS.Lib TinyOS.Fs TinyOS.Mkfs

/-! ## Who has files -/

namespace Filesys

variable {u u' : Filesys} {p q f c : Nat} {d d' : Desc}

theorem falloc_procs {u₁ : Filesys} (h : u.falloc = some (f, u₁)) : u₁.procs = u.procs := by
  obtain ⟨g, -, heq⟩ := Option.map_eq_some_iff.1 h
  cases heq
  rfl

theorem Fopened.procs {cwd mode : Nat} {path : List UInt8} {r : Option Nat} (h : Fopened u cwd path mode r u') :
    u'.procs = u.procs := by
  cases h with
  | full => rfl
  | missing ha _ hc => exact (fclose_procs hc).trans (falloc_procs ha :)
  | refused ha _ _ _ hc _ => exact (fclose_procs hc).trans (falloc_procs ha :)
  | file ha => exact (falloc_procs ha :)
  | device ha => exact (falloc_procs ha :)

theorem fread_procs {size : Nat} {r : Option (List UInt8)} (he : u.fread f size = some (r, u')) :
    u'.procs = u.procs := by
  unfold Filesys.fread at he
  simp only at he
  split at he
  · cases he
    rfl
  split at he
  · obtain ⟨⟨b, fs⟩, -, he⟩ := Option.bind_eq_some_iff.1 he
    cases b <;> cases he <;> rfl
  split at he
  · split at he
    · cases he
      rfl
    · cases he
  · cases he
    rfl

theorem fwrite_procs {buf : List UInt8} {r : Option Nat} (he : u.fwrite f buf = some (r, u')) :
    u'.procs = u.procs := by
  unfold Filesys.fwrite at he
  simp only at he
  split at he
  · cases he
    rfl
  split at he
  · obtain ⟨⟨b, fs⟩, -, he⟩ := Option.bind_eq_some_iff.1 he
    cases b <;> cases he <;> rfl
  split at he
  · split at he
    · cases he
      rfl
    · cases he
  · cases he
    rfl

theorem fseek_procs {off whence : Nat} {r : Option Nat} (he : u.fseek f off whence = some (r, u')) :
    u'.procs = u.procs := by
  unfold Filesys.fseek at he
  simp only at he
  split at he
  · split at he <;> cases he <;> rfl
  · cases he
    rfl

theorem setProc_isSome (hp : u.procs p = some d) : ((u.setProc p d').procs q).isSome = (u.procs q).isSome := by
  show (Function.update u.procs p (some d') q).isSome = _
  by_cases hq : q = p
  · rw [hq, Function.update_self, hp]
    rfl
  · rw [Function.update_of_ne hq]

theorem sysOpen_isSome {path : List UInt8} {mode : Nat} (hp : u.procs p = some d)
    (he : u.sysOpen p d path mode = some u') : (u'.procs q).isSome = (u.procs q).isSome := by
  unfold sysOpen at he
  split at he
  · cases he
    rfl
  · obtain ⟨⟨r, u₁⟩, ho, he⟩ := Option.bind_eq_some_iff.1 he
    have hprocs := (fopened ho).procs
    cases r with
    | none =>
      cases he
      rw [hprocs]
    | some f =>
      cases he
      rw [setProc_isSome (hprocs.symm ▸ hp), hprocs]

theorem sysClose_isSome {fd : Int} (hp : u.procs p = some d) (he : u.sysClose p d fd = some u') :
    (u'.procs q).isSome = (u.procs q).isSome := by
  unfold sysClose at he
  split at he
  · cases he
    rfl
  · obtain ⟨u₁, hc, he⟩ := Option.bind_eq_some_iff.1 he
    cases he
    rw [setProc_isSome ((fclose_procs hc).symm ▸ hp), fclose_procs hc]

theorem sysDup_isSome {fd : Int} (hp : u.procs p = some d) :
    ((u.sysDup p d fd).procs q).isSome = (u.procs q).isSome := by
  unfold sysDup
  split
  · rfl
  · split
    · rfl
    · exact setProc_isSome (u := u.fdup _) hp

theorem sysRead_procs {fd : Int} {size : Nat} (he : u.sysRead d fd size = some u') : u'.procs = u.procs := by
  unfold sysRead at he
  split at he
  · cases he
    rfl
  · obtain ⟨⟨r, u₁⟩, hr, rfl⟩ := Option.map_eq_some_iff.1 he
    exact fread_procs hr

theorem sysWrite_procs {fd : Int} {buf : List UInt8} (he : u.sysWrite d fd buf = some u') : u'.procs = u.procs := by
  unfold sysWrite at he
  split at he
  · cases he
    rfl
  · obtain ⟨⟨r, u₁⟩, hr, rfl⟩ := Option.map_eq_some_iff.1 he
    exact fwrite_procs hr

theorem sysLseek_procs {fd : Int} {off whence : Nat} (he : u.sysLseek d fd off whence = some u') :
    u'.procs = u.procs := by
  unfold sysLseek at he
  split at he
  · cases he
    rfl
  · obtain ⟨⟨r, u₁⟩, hr, rfl⟩ := Option.map_eq_some_iff.1 he
    exact fseek_procs hr

theorem sysChdir_isSome {path : List UInt8} (hp : u.procs p = some d) (he : u.sysChdir p d path = some u') :
    (u'.procs q).isSome = (u.procs q).isSome := by
  obtain ⟨⟨r, fs⟩, -, he⟩ := Option.bind_eq_some_iff.1 he
  cases r with
  | none =>
    cases he
    rfl
  | some i =>
    simp only at he
    split at he
    · obtain ⟨fs₁, -, he⟩ := Option.bind_eq_some_iff.1 he
      cases he
      rfl
    · obtain ⟨fs₁, -, he⟩ := Option.bind_eq_some_iff.1 he
      cases he
      exact setProc_isSome (u := { u with fs := fs₁ }) hp

theorem sysUnlink_procs {path : List UInt8} (he : u.sysUnlink d path = some u') : u'.procs = u.procs := by
  obtain ⟨⟨r, fs⟩, -, he⟩ := Option.bind_eq_some_iff.1 he
  cases he
  rfl

theorem sysExec_procs {path : List UInt8} {reads : List (Nat × Nat)} (he : u.sysExec d path reads = some u') :
    u'.procs = u.procs := by
  obtain ⟨⟨r, fs⟩, -, he⟩ := Option.bind_eq_some_iff.1 he
  cases r with
  | none =>
    cases he
    rfl
  | some i =>
    obtain ⟨fs₁, -, he⟩ := Option.bind_eq_some_iff.1 he
    obtain ⟨fs₂, -, he⟩ := Option.bind_eq_some_iff.1 he
    cases he
    rfl

/-- A call other than `fork` and `exit` leaves it as it is who has files. -/
theorem step_isSome {call : Call} (hf : ∀ c, call ≠ .fork c) (hx : call ≠ .exit) (he : u.step p call = some u') :
    (u'.procs q).isSome = (u.procs q).isSome := by
  unfold Filesys.step at he
  split at he
  · cases he
  next d hp =>
  cases call with
  | «open» path mode => exact sysOpen_isSome hp he
  | close fd => exact sysClose_isSome hp he
  | dup fd =>
    cases he
    exact sysDup_isSome hp
  | read fd size => rw [sysRead_procs he]
  | write fd buf => rw [sysWrite_procs he]
  | lseek fd off whence => rw [sysLseek_procs he]
  | chdir path => exact sysChdir_isSome hp he
  | unlink path => rw [sysUnlink_procs he]
  | exec path reads => rw [sysExec_procs he]
  | fork c => exact absurd rfl (hf c)
  | exit => exact absurd rfl hx

theorem dups_procs (tab : Nat → Option Nat) : ∀ (l : List Nat) (u : Filesys),
    (l.foldl (fun u j => (tab j).elim u u.fdup) u).procs = u.procs
  | [], _ => rfl
  | j :: l, u => by
    rw [List.foldl_cons, dups_procs tab l]
    cases tab j <;> rfl

theorem closes_procs {tab : Nat → Option Nat} : ∀ {l : List Nat} {u : Filesys},
    l.foldlM (fun u j => (tab j).elim (some u) u.fclose) u = some u' → u'.procs = u.procs
  | [], u, he => by
    cases he
    rfl
  | j :: l, u, he => by
    rw [List.foldlM_cons] at he
    obtain ⟨u₁, h1, he⟩ := Option.bind_eq_some_iff.1 he
    refine (closes_procs he).trans ?_
    cases hj : tab j with
    | none =>
      rw [hj] at h1
      cases h1
      rfl
    | some f =>
      rw [hj] at h1
      exact fclose_procs h1

theorem fork_procs : (u.fork c d).procs = Function.update u.procs c (some d) := by
  unfold fork
  simp only [setProc, dups_procs]

theorem fork_isSome (he : u.step p (.fork c) = some u') : (u'.procs q).isSome ↔ q = c ∨ (u.procs q).isSome := by
  unfold Filesys.step at he
  split at he
  · cases he
  next d hp =>
  simp only at he
  split at he
  · cases he
    rw [fork_procs, Function.update_apply]
    split
    · next hq => exact iff_of_true rfl (Or.inl hq)
    · next hq => exact (or_iff_right hq).symm
  · cases he

theorem exit_isSome (he : u.step p .exit = some u') : (u'.procs q).isSome ↔ q ≠ p ∧ (u.procs q).isSome := by
  unfold Filesys.step at he
  split at he
  · cases he
  next d hp =>
  obtain ⟨u₁, hc, he⟩ := Option.bind_eq_some_iff.1 he
  obtain ⟨fs, -, he⟩ := Option.bind_eq_some_iff.1 he
  cases he
  show (u₁.procs q).isSome ↔ _
  rw [closes_procs hc]
  show (Function.update u.procs p none q).isSome ↔ _
  rw [Function.update_apply]
  split
  · next hq => exact iff_of_false Bool.false_ne_true fun hc => hc.1 hq
  · next hq => exact (and_iff_right hq).symm

end Filesys

/-! ## Who lives -/

namespace Kernel

variable {k k' k₁ : Kernel} {e : Event} {out : Out} {p c : Nat}

theorem Calm.live (h : Calm k k') : Live k'.sys p ↔ Live k.sys p := and_congr (h.unused p).not (h.zombie p).not

/-- Only `fork` makes a process, and only `exit` ends one. -/
theorem Change.live (h : Change k e out k') : Live k'.sys p ↔
    (Live k.sys p ∧ ¬ ((∃ v, e = .exit v) ∧ p = k.sys.curr)) ∨ (e = .fork ∧ ∃ k₁, k.procAlloc = some (p, k₁)) := by
  cases h with
  | calm _ _ _ hc _ hx hf =>
    rw [hc.live]
    refine ⟨fun hl => Or.inl ⟨hl, fun ⟨⟨v, hv⟩, _⟩ => hx v hv⟩, ?_⟩
    rintro (⟨hl, -⟩ | ⟨rfl, k₁, ha⟩)
    · exact hl
    · rw [hf rfl] at ha
      cases ha
  | fork c k₁ _ ha _ hk =>
    rw [hk.live]
    constructor
    · rintro (rfl | hl)
      · exact Or.inr ⟨rfl, k₁, ha⟩
      · exact Or.inl ⟨hl, fun ⟨⟨v, hv⟩, _⟩ => Event.noConfusion hv⟩
    · rintro (⟨hl, -⟩ | ⟨-, k₂, ha'⟩)
      · exact Or.inr hl
      · obtain ⟨rfl, -⟩ := Prod.mk.inj (Option.some.inj (ha.symm.trans ha'))
        exact Or.inl rfl
  | exit v _ hk =>
    rw [hk.live]
    constructor
    · rintro ⟨hne, hl⟩
      exact Or.inl ⟨hl, fun hc => hne hc.2⟩
    · rintro (⟨hl, hn⟩ | ⟨hc, -⟩)
      · exact ⟨fun hp => hn ⟨⟨v, rfl⟩, hp⟩, hl⟩
      · cases hc
  | wait _ k₁ z _ he hc _ _ _ _ hw =>
    rw [hw.live, hc.live]
    have hne : (∀ v, e ≠ .exit v) ∧ e ≠ .fork := by
      obtain rfl | ⟨rfl, -⟩ := he
      · exact ⟨fun _ => Event.noConfusion, Event.noConfusion⟩
      · exact ⟨fun _ => Event.noConfusion, Event.noConfusion⟩
    refine ⟨fun hl => Or.inl ⟨hl, fun ⟨⟨v, hv⟩, _⟩ => hne.1 v hv⟩, ?_⟩
    rintro (⟨hl, -⟩ | ⟨hf, -⟩)
    · exact hl
    · exact absurd hf hne.2

theorem step_live (h : Family k) (hs : k.step e = some k') : Live k'.sys p ↔
    (Live k.sys p ∧ ¬ ((∃ v, e = .exit v) ∧ p = k.sys.curr)) ∨ (e = .fork ∧ ∃ k₁, k.procAlloc = some (p, k₁)) := by
  obtain ⟨-, k₁, out, -, hch, hk⟩ := step_change h hs
  exact hk.calm.live.trans hch.live

/-- PCB 1 is the first process. -/
theorem boot_live (hb : boot = some k) : Live k.sys p ↔ p = 0 ∨ p = 1 := by
  obtain ⟨c, hc, hst, -⟩ := boot_eq hb
  have hev : (boot.map fun k => k.sys.status 1) = some .ready := by decide +kernel
  have h1 : k.sys.status 1 = .ready := by
    rw [hb] at hev
    exact Option.some.inj hev
  obtain rfl : 1 = c := by
    by_contra hne
    rw [hst, if_neg hne, if_neg (by decide)] at h1
    cases h1
  unfold Live
  rw [hst]
  split
  · next hp => exact iff_of_true (by decide) (Or.inr hp)
  · next hp =>
    split
    · next h0 => exact iff_of_true (by decide) (Or.inl h0)
    · next h0 => exact iff_of_false (fun hn => hn.1 rfl) fun ho => ho.elim h0 hp

end Kernel

/-! ## Both -/

/-- The kernel's tables of files and inodes and the disk, and its processes. -/
structure System where
  files : Filesys
  procs : Kernel

namespace System

/-- A call on files, or any other event of the kernel. -/
inductive Event where
  | file (call : Filesys.Call)
  | proc (event : Kernel.Event)

/-- A call on files is one of the current process, and leaves the processes as they are; `fork` and `exit`
happen to both. -/
def step (s : System) : Event → Option System
  | .file (.fork _) => none
  | .file .exit => none
  | .file call => do return ⟨← s.files.step s.procs.sys.curr call, ← s.procs.step .exec⟩
  | .proc .fork =>
    match s.procs.procAlloc with
    | none => do return ⟨s.files, ← s.procs.step .fork⟩
    | some (c, _) => do return ⟨← s.files.step s.procs.sys.curr (.fork c), ← s.procs.step .fork⟩
  | .proc (.exit status) => do
    return ⟨← s.files.step s.procs.sys.curr .exit, ← s.procs.step (.exit status)⟩
  | .proc event => do return ⟨s.files, ← s.procs.step event⟩

def Step (s : System) (e : Event) (t : System) : Prop := s.step e = some t

/-- Who lives has files. -/
def Agree (s : System) : Prop := ∀ p, (s.files.procs p).isSome ↔ Kernel.Live s.procs.sys p

variable {s t : System} {e : Event}

/-- What a step is: a call on files, an event that leaves the files alone, a process that comes, or one that goes. -/
inductive Moves (s : System) : Event → System → Prop
  | file {call : Filesys.Call} {u : Filesys} {k : Kernel} : (∀ c, call ≠ .fork c) → call ≠ .exit →
      s.files.step s.procs.sys.curr call = some u → s.procs.step .exec = some k → Moves s (.file call) ⟨u, k⟩
  | proc {event : Kernel.Event} {k : Kernel} : (event = .fork → s.procs.procAlloc = none) →
      (∀ v, event ≠ .exit v) → s.procs.step event = some k → Moves s (.proc event) ⟨s.files, k⟩
  | fork {c : Nat} {u : Filesys} {k k₁ : Kernel} : s.procs.procAlloc = some (c, k₁) →
      s.files.step s.procs.sys.curr (.fork c) = some u → s.procs.step .fork = some k → Moves s (.proc .fork) ⟨u, k⟩
  | exit {status : Int} {u : Filesys} {k : Kernel} : s.files.step s.procs.sys.curr .exit = some u →
      s.procs.step (.exit status) = some k → Moves s (.proc (.exit status)) ⟨u, k⟩

theorem Step.moves (h : Step s e t) : Moves s e t := by
  unfold Step step at h
  split at h
  · cases h
  · cases h
  · next call hf hx =>
    obtain ⟨u, hu, h⟩ := Option.bind_eq_some_iff.1 h
    obtain ⟨k, hk, h⟩ := Option.bind_eq_some_iff.1 h
    cases h
    exact .file hf hx hu hk
  · split at h
    · next ha =>
      obtain ⟨k, hk, h⟩ := Option.bind_eq_some_iff.1 h
      cases h
      exact .proc (fun _ => ha) (fun _ => Kernel.Event.noConfusion) hk
    · next ha =>
      obtain ⟨u, hu, h⟩ := Option.bind_eq_some_iff.1 h
      obtain ⟨k, hk, h⟩ := Option.bind_eq_some_iff.1 h
      cases h
      exact .fork ha hu hk
  · obtain ⟨u, hu, h⟩ := Option.bind_eq_some_iff.1 h
    obtain ⟨k, hk, h⟩ := Option.bind_eq_some_iff.1 h
    cases h
    exact .exit hu hk
  · next event hf hx =>
    obtain ⟨k, hk, h⟩ := Option.bind_eq_some_iff.1 h
    cases h
    exact .proc (fun hc => absurd hc hf) hx hk

theorem Agree.step (h : Agree s) (hk : Kernel.Family s.procs) (hs : Step s e t) : Agree t := by
  intro p
  cases hs.moves with
  | file hf hx hu hstep =>
    rw [Filesys.step_isSome hf hx hu, h p, Kernel.step_live hk hstep]
    refine ⟨fun hl => Or.inl ⟨hl, fun ⟨⟨v, hv⟩, _⟩ => Kernel.Event.noConfusion hv⟩, ?_⟩
    rintro (⟨hl, -⟩ | ⟨hc, -⟩)
    · exact hl
    · cases hc
  | proc hf hx hstep =>
    rw [h p, Kernel.step_live hk hstep]
    refine ⟨fun hl => Or.inl ⟨hl, fun ⟨⟨v, hv⟩, _⟩ => hx v hv⟩, ?_⟩
    rintro (⟨hl, -⟩ | ⟨hc, k₁, ha⟩)
    · exact hl
    · rw [hf hc] at ha
      cases ha
  | fork ha hu hstep =>
    rw [Filesys.fork_isSome hu, h p, Kernel.step_live hk hstep]
    constructor
    · rintro (rfl | hl)
      · exact Or.inr ⟨rfl, _, ha⟩
      · exact Or.inl ⟨hl, fun ⟨⟨v, hv⟩, _⟩ => Kernel.Event.noConfusion hv⟩
    · rintro (⟨hl, -⟩ | ⟨-, k₂, ha'⟩)
      · exact Or.inr hl
      · exact Or.inl (congrArg Prod.fst (Option.some.inj (ha'.symm.trans ha)))
  | exit hu hstep =>
    rw [Filesys.exit_isSome hu, h p, Kernel.step_live hk hstep]
    constructor
    · rintro ⟨hne, hl⟩
      exact Or.inl ⟨hl, fun hc => hne hc.2⟩
    · rintro (⟨hl, hn⟩ | ⟨hc, -⟩)
      · exact ⟨fun hp => hn ⟨⟨_, rfl⟩, hp⟩, hl⟩
      · cases hc

theorem Moves.rest (h : Moves s e t) (hr : Filesys.Rest s.files) : Filesys.Rest t.files := by
  cases h with
  | file _ _ hu _ => exact hr.step hu
  | proc => exact hr
  | fork _ hu _ => exact hr.step hu
  | exit hu _ => exact hr.step hu

theorem Moves.family (h : Moves s e t) (hk : Kernel.Family s.procs) : Kernel.Family t.procs := by
  cases h with
  | file _ _ _ hs => exact Kernel.step_family hk hs
  | proc _ _ hs => exact Kernel.step_family hk hs
  | fork _ _ hs => exact Kernel.step_family hk hs
  | exit _ hs => exact Kernel.step_family hk hs

theorem boot_agree {boot₀ m : Store} {files : List (List UInt8 × List UInt8)} {u : Filesys} {k : Kernel}
    (hm : mkfs boot₀ files = some m) (hb : Filesys.boot m = some u) (hk : Kernel.boot = some k) : Agree ⟨u, k⟩ := by
  intro p
  obtain ⟨-, -, -, -, -, rfl⟩ := Filesys.boot_some hm hb
  rw [Kernel.boot_live hk]
  by_cases h0 : p = 0
  · simp [h0]
  by_cases h1 : p = 1
  · simp [h1]
  simp [h0, h1]

/-- In every run of the whole system exactly the live processes have files, the process that a call on files comes
from among them, and none of them is where `fork` puts a new one; and all reference counts are exact. -/
theorem system_counted {boot₀ m : Store} {files : List (List UInt8 × List UInt8)} {u₀ : Filesys} {k₀ : Kernel}
    {es : List Event} (hname : ∀ f ∈ files, FileName f.1) (huniq : (files.map Prod.fst).Nodup)
    (hm : mkfs boot₀ files = some m) (hb : Filesys.boot m = some u₀) (hk : Kernel.boot = some k₀)
    (hr : Run Step ⟨u₀, k₀⟩ es s) :
    Agree s ∧ (s.files.procs s.procs.sys.curr).isSome ∧
      (∀ c k₁, s.procs.procAlloc = some (c, k₁) → s.files.procs c = none) ∧
      Filesys.Counted s.files ∧ ∃ dom wait, Kernel.Counted s.procs dom wait := by
  obtain ⟨hrest, hfam, hagree⟩ := hr.invariant
    (I := fun s => Filesys.Rest s.files ∧ Kernel.Family s.procs ∧ Agree s)
    (fun _ _ _ h hs => ⟨hs.moves.rest h.1, hs.moves.family h.2.1, h.2.2.step h.2.1 hs⟩)
    ⟨Filesys.boot_rest hname huniq hm hb, Kernel.boot_family hk, boot_agree hm hb hk⟩
  obtain ⟨⟨dom, wait, hw⟩, hruns⟩ := hfam.inv
  refine ⟨hagree, (hagree _).2 hruns.live, fun c k₁ ha => ?_, hrest.counted, dom, wait, hw.counted⟩
  have hst := (Kernel.procAlloc_eq ha).2.2.1
  refine Option.not_isSome_iff_eq_none.1 fun hc => ((hagree c).1 hc).1 hst

/-- A process makes a directory, forks and waits for its child, which goes there and ends. -/
def lifetime : List Event :=
  [.proc .timer, .file (.open [slash, 100] (oCreate ||| oDir)), .proc .fork, .proc .wait,
    .file (.chdir [slash, 100]), .proc (.exit 0), .proc .timer, .proc .resume]

theorem lifetime_isSome : (((mkfs (fun _ => 0) shell).bind Filesys.boot).bind fun u => Kernel.boot.bind fun k =>
    lifetime.foldlM step ⟨u, k⟩).isSome := by
  decide +kernel

theorem system_counted_demo : ∃ m u₀ k₀ s, mkfs (fun _ => 0) shell = some m ∧ Filesys.boot m = some u₀ ∧
    Kernel.boot = some k₀ ∧ Run Step ⟨u₀, k₀⟩ lifetime s ∧ Agree s := by
  obtain ⟨s, h⟩ := Option.isSome_iff_exists.1 lifetime_isSome
  obtain ⟨u₀, hu₀, h⟩ := Option.bind_eq_some_iff.1 h
  obtain ⟨m, hm, hb⟩ := Option.bind_eq_some_iff.1 hu₀
  obtain ⟨k₀, hk, h⟩ := Option.bind_eq_some_iff.1 h
  have hr := Run.of_foldlM h
  exact ⟨m, u₀, k₀, s, hm, hb, hk, hr, (system_counted shell_name shell_nodup hm hb hk hr).1⟩

end System

end TinyOS
