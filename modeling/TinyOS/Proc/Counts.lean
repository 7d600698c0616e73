/-
Reference counts are exact: of open files, inodes and user semaphores, between any two system calls.
What has a user is never handed out again.
-/
import TinyOS.File.Dirs
import TinyOS.Proc.Sched

namespace TinyOS

open TinyOS.Lib TinyOS.Fs TinyOS.Mkfs

/-! ## Files -/

namespace Filesys

variable {u : Filesys} {p f i j : Nat} {d : Desc}

/-- Every reference to an open file is a descriptor, and every reference to an inode an open file or a
working directory; none of them leads to a free entry. -/
structure Counted (u : Filesys) : Prop where
  file : ∀ f, (u.files f).ref = u.fdRefs f
  inode : ∀ i, (u.fs.inodes i).ref = u.slotRefs i
  fd : ∀ p d j f, u.procs p = some d → j < maxUfile → d.files j = some f → 0 < (u.files f).ref
  slot : ∀ f, 0 < (u.files f).ref → (u.files f).type = typeFile → 0 < (u.fs.inodes (u.files f).inode).ref
  cwd : ∀ p d, u.procs p = some d → 0 < (u.fs.inodes d.cwd).ref

theorem Rest.counted (h : Rest u) : Counted u where
  file f := (h.fds f).trans (add_zero _)
  inode i := (view_refs h.good).symm.trans ((h.seats i).trans (add_zero _))
  fd p d j f hp hj hf := h.opened hp hj hf
  slot f hr ht := by
    rw [← view_refs h.good]
    exact h.file_refs hr ht
  cwd p d hp := by
    rw [← view_refs h.good]
    exact h.cwd_refs hp

end Filesys

/-! ## Semaphores -/

namespace Kernel

variable {k : Kernel} {p u : Nat}

/-- Every reference to a user semaphore is an entry of a live process, none of which leads to a free
semaphore; `wait` are the wait lists, and no process waits on a semaphore that `usem_alloc` hands out. -/
structure Counted (k : Kernel) (dom : Sema → Prop) (wait : Sema → List Nat) : Prop where
  usem : ∀ u, k.ref u = k.holders u
  id : ∀ p j u, p < procNum → Live k.sys p → j < maxUsem → (k.pcb p).usems j = some u → 0 < k.ref u
  lists : Sys.WaitOK dom k.sys wait
  waiter : ∀ u p, dom (.user u) → p ∈ wait (.user u) → 0 < k.ref u
  alloc : ∀ value u k', k.usemAlloc value = some (u, k') → dom (.user u) → wait (.user u) = []

variable {dom : Sema → Prop} {wait : Sema → List Nat} {G : Sema → Prop}

theorem usemAlloc_free {value : Int} {k' : Kernel} (h : k.usemAlloc value = some (u, k')) : k.ref u = 0 := by
  unfold usemAlloc at h
  obtain ⟨v, hv, heq⟩ := Option.map_eq_some_iff.1 h
  cases heq
  simpa using List.find?_some hv

theorem Waits.counted (h : Waits G dom wait k) : Counted k dom wait := by
  -- who waits on a semaphore has it open
  have hwaiter : ∀ u p, dom (.user u) → p ∈ wait (.user u) → 0 < k.ref u := fun u p hd hp => by
    obtain ⟨j, hj, hu⟩ := h.may _ hd p hp
    have hlive : Live k.sys p := by
      unfold Live
      rw [h.blocked hd hp]
      decide
    rw [h.refs u]
    exact holders_pos (h.ok.procs _ hd p hp).2 hlive ⟨j, hj, hu⟩
  refine ⟨h.refs, fun p j u hp hl hj hu => ?_, h.ok, hwaiter, fun value u k' ha hd => ?_⟩
  · rw [h.refs u]
    exact holders_pos hp hl ⟨j, hj, hu⟩
  · by_contra hne
    obtain ⟨p, hp⟩ := List.exists_mem_of_ne_nil _ hne
    have := hwaiter u p hd hp
    rw [usemAlloc_free ha] at this
    exact absurd this (lt_irrefl 0)

end Kernel

/-- In every run of system calls on files from an image that mkfs made, and in every run of processes
and their semaphores, all reference counts are exact. -/
theorem refs_exact {boot₀ m : Store} {files : List (List UInt8 × List UInt8)} {u₀ u : Filesys} {k₀ k : Kernel}
    {cs : List (Nat × Filesys.Call)} {es : List Kernel.Event} (hname : ∀ f ∈ files, FileName f.1)
    (huniq : (files.map Prod.fst).Nodup) (hm : mkfs boot₀ files = some m) (hb : Filesys.boot m = some u₀)
    (hr : Run Filesys.Step u₀ cs u) (hk : Kernel.boot = some k₀) (hrun : Run Kernel.Step k₀ es k) :
    Filesys.Counted u ∧ ∃ dom wait, Kernel.Counted k dom wait := by
  refine ⟨(Filesys.run_rest (Filesys.boot_rest hname huniq hm hb) hr).counted, ?_⟩
  obtain ⟨⟨dom, wait, h⟩, -⟩ := Kernel.run_inv hk hrun
  exact ⟨dom, wait, h.counted⟩

/-- A directory made and opened, and a child that shares a semaphore with its parent. -/
theorem refs_exact_demo : ∃ m u₀ u k₀ k, mkfs (fun _ => 0) shell = some m ∧ Filesys.boot m = some u₀ ∧
    Run Filesys.Step u₀ (Filesys.demoCalls ++ Filesys.demoWrites) u ∧ Kernel.boot = some k₀ ∧
    Run Kernel.Step k₀ [.timer, .semOpen 1, .fork] k ∧ Filesys.Counted u ∧ ∃ dom wait, Kernel.Counted k dom wait := by
  obtain ⟨u, h⟩ := Option.isSome_iff_exists.1 Filesys.demo_isSome
  obtain ⟨u₀, hu₀, hrun⟩ := Option.bind_eq_some_iff.1 h
  obtain ⟨m, hm, hb⟩ := Option.bind_eq_some_iff.1 hu₀
  have hev : (Kernel.boot.bind fun k₀ => [Kernel.Event.timer, .semOpen 1, .fork].foldlM Kernel.step k₀).isSome := by
    decide +kernel
  obtain ⟨k, hk⟩ := Option.isSome_iff_exists.1 hev
  obtain ⟨k₀, hk₀, hkr⟩ := Option.bind_eq_some_iff.1 hk
  obtain ⟨h1, h2⟩ := refs_exact shell_name shell_nodup hm hb
    (Run.of_foldlM hrun) hk₀ (Run.of_foldlM hkr)
  exact ⟨m, u₀, u, k₀, k, hm, hb, .of_foldlM hrun, hk₀, .of_foldlM hkr, h1, h2⟩

end TinyOS
