/-
One segment: when its stores stay on the pages mapped for it, and what loading it does.
-/
import TinyOS.Load.File
import TinyOS.Vm.Fresh

namespace TinyOS

open TinyOS.Lib TinyOS.Vm Phdr

variable {fs : Fs} {s s' : Vm} {D K : Nat → Prop} {L L' : List Nat} {P : Finset Nat} {x y : Loader}
  {ph : Phdr} {f : List UInt8} {d i n a r w va memsz filesz size total : Nat}

theorem pVaddr_lt : pVaddr ph < 2 ^ 32 := Store.word_lt

theorem pMemsz_lt : pMemsz ph < 2 ^ 32 := Store.word_lt

theorem pFilesz_lt : pFilesz ph < 2 ^ 32 := Store.word_lt

/-! ## Ranges -/

/-- All stores are on the pages mapped for the segment. -/
def Written.Inside (t : Written) : Prop := ∀ sp ∈ t.spans, ∀ i < sp.2, InRange t.va t.memsz (uint32 (sp.1 + i) / pgsize)

/-- Bytes from `va` on. -/
theorem file_inside (hva : va < 2 ^ 32) (hlow : phyMem ≤ pageDown va) :
    (∀ i < n, InRange va memsz (uint32 (va + i) / pgsize)) ↔ n = 0 ∨ va + n ≤ pageUp (uint32 (va + memsz)) := by
  obtain ⟨m, hm⟩ : ∃ m, pageUp (uint32 (va + memsz)) = m * 4096 := ⟨_, rfl⟩
  have hup : pageUp (uint32 (va + memsz)) ≤ (1024 * 1024 - 1) * 4096 := pageUp_le
  have hdown : 0x8000000 ≤ va / 4096 * 4096 := hlow
  unfold InRange uint32 pgsize
  unfold uint32 at hm hup
  rw [hm] at hup ⊢
  constructor
  · intro hall
    by_contra hc
    by_cases hw : va + (n - 1) < 2 ^ 32
    · have hlast := hall (n - 1) (by omega)
      omega
    · -- the bytes go on at address 0
      have hzero := hall (2 ^ 32 - va) (by omega)
      omega
  · intro hn i hi
    omega

/-- The zeros, which end at `va + memsz`. -/
theorem zeros_inside (hva : va < 2 ^ 32) (hmemsz : memsz < 2 ^ 32) (hlow : phyMem ≤ pageDown va)
    (hle : pageDown va ≤ pageUp (uint32 (va + memsz))) :
    (∀ i < usub32 memsz filesz, InRange va memsz (uint32 (uint32 (va + filesz) + i) / pgsize)) ↔
      usub32 memsz filesz = 0 ∨ pageDown va + usub32 memsz filesz ≤ uint32 (va + memsz) := by
  obtain ⟨e, he⟩ : ∃ e, uint32 (va + memsz) = e := ⟨_, rfl⟩
  obtain ⟨z, hz⟩ : ∃ z, uint32 (va + filesz) = z := ⟨_, rfl⟩
  obtain ⟨n, hn⟩ : ∃ n, usub32 memsz filesz = n := ⟨_, rfl⟩
  -- whatever the two lengths are, the zeros end where the range ends
  have hsum : (z + n) % 2 ^ 32 = e := by
    rw [← he, ← hz, ← hn]
    unfold uint32 usub32
    omega
  have hn' : n < 2 ^ 32 := hn ▸ Nat.mod_lt _ (by decide)
  have hz' : z < 2 ^ 32 := hz ▸ uint32_lt _
  have he' : e < 2 ^ 32 := he ▸ uint32_lt _
  unfold InRange
  rw [he] at hle ⊢
  rw [hz, hn]
  clear he hz hn
  have hup : e ≤ pageUp e ∧ 0 < e := by
    have h1 : 0x8000000 ≤ va / 4096 * 4096 := hlow
    have h2 : va / 4096 * 4096 ≤ (e + 4095) % 2 ^ 32 / 4096 * 4096 := hle
    show e ≤ (e + 4095) % 2 ^ 32 / 4096 * 4096 ∧ 0 < e
    omega
  obtain ⟨m, hm⟩ : ∃ m, pageUp e = m * 4096 := ⟨_, rfl⟩
  have hdown : 0x8000000 ≤ va / 4096 * 4096 := hlow
  have htop : pageUp e ≤ (1024 * 1024 - 1) * 4096 := pageUp_le
  rw [hm] at hup htop ⊢
  unfold uint32 pgsize
  show _ ↔ n = 0 ∨ va / 4096 * 4096 + n ≤ e
  constructor
  · intro hall
    by_contra hc
    have hfirst := hall 0 (by omega)
    by_cases hw : z + n ≤ 2 ^ 32
    · omega
    · -- the zeros go on at address 0
      have hzero := hall (2 ^ 32 - z) (by omega)
      omega
  · intro hn i hi
    omega

/-- For a file of `size` bytes: the range is one of user pages, `iread` serves the request, and the bytes read
and the zeros stay on the pages of the range. -/
structure SegOk (size : Nat) (ph : Phdr) : Prop where
  low : phyMem ≤ pageDown (pVaddr ph)
  order : pageDown (pVaddr ph) ≤ pageUp (uint32 (pVaddr ph + pMemsz ph))
  request : pOffset ph ≤ size → pOffset ph + pFilesz ph < 2 ^ 32
  file : min (pFilesz ph) (size - pOffset ph) = 0 ∨
    pVaddr ph + min (pFilesz ph) (size - pOffset ph) ≤ pageUp (uint32 (pVaddr ph + pMemsz ph))
  zeros : usub32 (pMemsz ph) (pFilesz ph) = 0 ∨
    pageDown (pVaddr ph) + usub32 (pMemsz ph) (pFilesz ph) ≤ uint32 (pVaddr ph + pMemsz ph)

/-- What is written for a segment of the file `f`. -/
def written (f : List UInt8) (ph : Phdr) : Written where
  va := pVaddr ph
  memsz := pMemsz ph
  spans := [(pVaddr ph, (filePart f (pOffset ph) (pFilesz ph)).length),
    (uint32 (pVaddr ph + pFilesz ph), usub32 (pMemsz ph) (pFilesz ph))]

theorem written_inside (hlow : phyMem ≤ pageDown (pVaddr ph))
    (hle : pageDown (pVaddr ph) ≤ pageUp (uint32 (pVaddr ph + pMemsz ph))) :
    (written f ph).Inside ↔ (min (pFilesz ph) (f.length - pOffset ph) = 0 ∨
        pVaddr ph + min (pFilesz ph) (f.length - pOffset ph) ≤ pageUp (uint32 (pVaddr ph + pMemsz ph))) ∧
      (usub32 (pMemsz ph) (pFilesz ph) = 0 ∨
        pageDown (pVaddr ph) + usub32 (pMemsz ph) (pFilesz ph) ≤ uint32 (pVaddr ph + pMemsz ph)) := by
  have hva : pVaddr ph < 2 ^ 32 := pVaddr_lt
  have hmemsz : pMemsz ph < 2 ^ 32 := pMemsz_lt
  rw [← file_inside hva hlow, ← zeros_inside hva hmemsz hlow hle]
  unfold Written.Inside written
  simp only [List.forall_mem_cons, filePart_length]
  exact ⟨fun h => ⟨h.1, h.2.1⟩, fun h => ⟨h.1, h.2, fun _ hsp => absurd hsp List.not_mem_nil⟩⟩

/-! ## The address space -/

theorem Vm.Sound.setCr3 (h : Sound s D K L) : Sound { s with cr3 := a } D K L :=
  ⟨h.chain.congr fun _ _ => rfl, h.nodup, h.heap, h.own, h.prot⟩

theorem Vm.Fills.setCr3 (h : Fills s d L P total) : Fills { s with cr3 := a } d L P total := ⟨h.pte, h.pde, h.count⟩

/-- What was mapped before reads as before. -/
theorem Vm.Added.peek {R : Nat → Prop} (h : Added s s' D K L L' d r R) (hd : D d) (ha : UserPage (a / pgsize))
    (hv : s.view d (a / pgsize) ≠ none) : s'.peek d a = s.peek d a := by
  obtain ⟨⟨q, r⟩, hv⟩ := Option.ne_none_iff_exists'.1 hv
  by_cases hR : R (a / pgsize)
  · obtain ⟨hview, hmem⟩ := h.old _ q r ha hR hv
    rw [peek_view, peek_view, hview, hv, Option.map_some, Option.map_some, hmem]
  · have hsame := h.rest d _ hd ha fun hc => hR hc.2
    rw [peek_view, peek_view, hsame.view, hv, Option.map_some, Option.map_some, hsame.mem q r hv]

/-- The pages `P` of the directory are mapped, and the file system is `fs`. -/
structure Loading (x : Loader) (fs : Fs) (D K : Nat → Prop) (d : Nat) (P : Finset Nat) (total : Nat) : Prop where
  vm : ∃ L, Sound x.vm D K L ∧ Fills x.vm d L P total
  fs : x.fs = fs

/-- The bytes that a segment puts. -/
def segBytes (f : List UInt8) (ph : Phdr) (a : Nat) : Option UInt8 :=
  (bytesFrom (uint32 (pVaddr ph + pFilesz ph)) (List.replicate (usub32 (pMemsz ph) (pFilesz ph)) 0) a).or
    (bytesFrom (pVaddr ph) (filePart f (pOffset ph) (pFilesz ph)) a)

/-- A segment of the file `f` was loaded. -/
structure Loaded (x y : Loader) (f : List UInt8) (d : Nat) (ph : Phdr) : Prop where
  log : y.log = x.log ++ [written f ph]
  rights : ∀ w, UserPage w → y.vm.rights d w =
    if InRange (pVaddr ph) (pMemsz ph) w then x.vm.rights d w ||| prot ph else x.vm.rights d w
  new : ∀ a b, UserPage (a / pgsize) → segBytes f ph a = some b → y.vm.peek d a = some b
  old : ∀ a, UserPage (a / pgsize) → segBytes f ph a = none → x.vm.view d (a / pgsize) ≠ none →
    y.vm.peek d a = x.vm.peek d a

theorem prot_odd : (prot ph).testBit 0 = true ∧ prot ph < 8 := by
  unfold prot
  split <;> decide

theorem Vm.SameEntries.rights (h : SameEntries s s' D) (hd : D d) (hw : UserPage w) : s'.rights d w = s.rights d w := by
  unfold Vm.rights
  rw [h.pte d _ _ hd hw.index.1 hw.index.2, h.pde d _ hd hw.index.1]

theorem Vm.Fills.congr (h : Fills s d L P total) (he : SameEntries s s' D) (hd : D d) : Fills s' d L P total where
  pte w hw := by
    rw [he.pte d _ _ hd hw.index.1 hw.index.2]
    exact h.pte w hw
  pde c hc := by
    rw [he.pde d c hd hc]
    exact h.pde c hc
  count := h.count

/-- Where the zeros start, they do not wrap around. -/
theorem zeros_fit (hmemsz : memsz < 2 ^ 32)
    (h : usub32 memsz filesz = 0 ∨ pageDown va + usub32 memsz filesz ≤ uint32 (va + memsz)) :
    uint32 (va + filesz) + usub32 memsz filesz ≤ 2 ^ 32 := by
  unfold uint32 usub32 at *
  omega

/-- The stores of a segment whose pages are mapped in the address space of CR3. -/
theorem Vm.Sound.puts_segment (h : Sound s D K L) (hd : D s.cr3) (ok : SegOk f.length ph)
    (hm : ∀ w, InRange (pVaddr ph) (pMemsz ph) w → s.view s.cr3 w ≠ none) :
    ∃ s₁ s', s.puts (pVaddr ph) (filePart f (pOffset ph) (pFilesz ph)) = some s₁ ∧
      s₁.puts (uint32 (pVaddr ph + pFilesz ph)) (List.replicate (usub32 (pMemsz ph) (pFilesz ph)) 0) = some s' ∧
      Stored s s' D K L (segBytes f ph) := by
  have hva : pVaddr ph < 2 ^ 32 := pVaddr_lt
  have hmemsz : pMemsz ph < 2 ^ 32 := pMemsz_lt
  have hfile : ∀ j < (filePart f (pOffset ph) (pFilesz ph)).length,
      InRange (pVaddr ph) (pMemsz ph) (uint32 (pVaddr ph + j) / pgsize) := by
    rw [filePart_length]
    exact (file_inside hva ok.low).2 ok.file
  have hzeros := (zeros_inside hva hmemsz ok.low ok.order).2 ok.zeros
  have hfit : pVaddr ph + (filePart f (pOffset ph) (pFilesz ph)).length ≤ 2 ^ 32 := by
    have hup : pageUp (uint32 (pVaddr ph + pMemsz ph)) ≤ (1024 * 1024 - 1) * 4096 := pageUp_le
    have hend := ok.file
    rw [filePart_length]
    omega
  have hfit' := zeros_fit hmemsz ok.zeros
  -- first the data, then the zeros, which may lie over it
  obtain ⟨s₁, h1, hs₁⟩ := h.puts_mapped hd hfit fun j hj => by
    have hin := hfile j hj
    rw [uint32_of_lt (by omega)] at hin
    exact ⟨hin.userPage ok.low, hm _ hin⟩
  obtain ⟨bs, hbs⟩ : ∃ bs, bs = List.replicate (usub32 (pMemsz ph) (pFilesz ph)) (0 : UInt8) := ⟨_, rfl⟩
  have hlen : bs.length = usub32 (pMemsz ph) (pFilesz ph) := by
    rw [hbs, List.length_replicate]
  obtain ⟨s', h2, hs'⟩ : ∃ s', s₁.puts (uint32 (pVaddr ph + pFilesz ph)) bs = some s' ∧
      Stored s₁ s' D K L (bytesFrom (uint32 (pVaddr ph + pFilesz ph)) bs) :=
    hs₁.sound.puts_mapped (hs₁.cr3 ▸ hd) (by rw [hlen]; exact hfit') fun j hj => by
      rw [hlen] at hj
      have hin := hzeros j hj
      rw [uint32_of_lt (show uint32 (pVaddr ph + pFilesz ph) + j < 2 ^ 32 by omega)] at hin
      have huser := hin.userPage ok.low
      rw [hs₁.cr3, hs₁.same.view hd huser]
      exact ⟨huser, hm _ hin⟩
  rw [hbs] at h2 hs'
  exact ⟨s₁, s', h1, h2, (hs₁.trans hs').congr fun _ => rfl⟩

theorem Loading.loadSegment (h : Loading x fs D K d P total) (hd : D d) (ho : Opened fs i f) (ok : SegOk f.length ph)
    (hneed : need (P ∪ rangePages (pVaddr ph) (pMemsz ph)) ≤ total) :
    ∃ y, x.loadSegment d i ph = some y ∧ Loading y fs D K d (P ∪ rangePages (pVaddr ph) (pMemsz ph)) total ∧
    Loaded x y f d ph := by
  obtain ⟨L, hs, hF⟩ := h.vm
  obtain ⟨s₁, h1⟩ : ∃ s₁, x.vm.vmMap d (pVaddr ph) (pMemsz ph) (prot ph) = some s₁ :=
    hs.vmMap_fills hd hF prot_odd.1 prot_odd.2 ok.low ok.order hneed
  obtain ⟨L₁, hadd, hF₁⟩ := hs.fills_vmMap hd hF h1
  obtain ⟨-, -, -, hrights⟩ := hs.rights_vmMap hd h1
  obtain ⟨bs, h2, h3⟩ := ho.reads (pOffset ph) (pFilesz ph) pFilesz_lt ok.request
  obtain ⟨s₂, hs₂⟩ : ∃ s₂, s₂ = { s₁ with cr3 := d } := ⟨_, rfl⟩
  have hsound : Sound s₂ D K L₁ := hs₂ ▸ hadd.sound.setCr3
  have hcr : s₂.cr3 = d := by rw [hs₂]
  have hmapped : ∀ w, InRange (pVaddr ph) (pMemsz ph) w → s₂.view s₂.cr3 w ≠ none := by
    intro w hw
    rw [hcr, hs₂]
    exact (hF₁.view (hw.userPage ok.low)).2 (Finset.mem_union_right _ (mem_rangePages.2 hw))
  obtain ⟨s₃, s₄, h4, h5, hst⟩ := hsound.puts_segment (hcr ▸ hd) ok hmapped
  have hpeek : ∀ a, UserPage (a / pgsize) → s₄.peek d a = (segBytes f ph a).or (s₁.peek d a) := by
    intro a ha
    have hp := hst.peek a ha
    rw [hcr] at hp
    rw [hp, hs₂]
    rfl
  refine ⟨⟨s₄, fs, x.log ++ [written f ph]⟩, ?_, ⟨⟨L₁, hst.sound, ?_⟩, rfl⟩, rfl, ?_, ?_, ?_⟩
  · rw [← h3, hs₂] at h4
    rw [← h.fs] at h2
    unfold Loader.loadSegment
    refine Option.bind_eq_some_iff.2 ⟨_, h1, ?_⟩
    refine Option.bind_eq_some_iff.2 ⟨_, h2, ?_⟩
    refine Option.bind_eq_some_iff.2 ⟨_, h4, ?_⟩
    refine Option.bind_eq_some_iff.2 ⟨_, h5, ?_⟩
    unfold written
    rw [h.fs, ← h3]
    rfl
  · refine Fills.congr (s := s₂) ?_ hst.same hd
    rw [hs₂]
    exact hF₁.setCr3
  · intro w hw
    show s₄.rights d w = _
    rw [hst.same.rights hd hw, hs₂]
    refine (hrights d w hd hw).trans ?_
    simp
  · intro a b ha hb
    show s₄.peek d a = some b
    rw [hpeek a ha, hb]
    rfl
  · intro a ha hb hv
    show s₄.peek d a = _
    rw [hpeek a ha, hb]
    exact hadd.peek hd ha hv

theorem Loader.loadSegment_log (he : x.loadSegment d i ph = some y) : x.log ⊆ y.log := by
  unfold Loader.loadSegment at he
  obtain ⟨s₁, -, he⟩ := Option.bind_eq_some_iff.1 he
  obtain ⟨r, -, he⟩ := Option.bind_eq_some_iff.1 he
  obtain ⟨s₂, -, he⟩ := Option.bind_eq_some_iff.1 he
  obtain ⟨s₃, -, he⟩ := Option.bind_eq_some_iff.1 he
  cases he
  exact List.subset_append_left _ _

/-- The converse: what is loaded with all stores inside had to be in order. -/
theorem Loading.segOk (h : Loading x fs D K d P total) (hd : D d) (ho : Opened fs i f)
    (he : x.loadSegment d i ph = some y) (hin : ∀ t ∈ y.log, t.Inside) :
    SegOk f.length ph ∧ need (P ∪ rangePages (pVaddr ph) (pMemsz ph)) ≤ total := by
  obtain ⟨L, hs, hF⟩ := h.vm
  unfold Loader.loadSegment at he
  obtain ⟨s₁, h1, he⟩ := Option.bind_eq_some_iff.1 he
  obtain ⟨⟨r, fs'⟩, h2, he⟩ := Option.bind_eq_some_iff.1 he
  obtain ⟨s₂, -, he⟩ := Option.bind_eq_some_iff.1 he
  obtain ⟨s₃, -, he⟩ := Option.bind_eq_some_iff.1 he
  obtain ⟨L₁, -, hF₁⟩ := hs.fills_vmMap hd hF h1
  have hrange : phyMem ≤ pageDown (pVaddr ph) ∧ pageDown (pVaddr ph) ≤ pageUp (uint32 (pVaddr ph + pMemsz ph)) := by
    unfold Vm.vmMap at h1
    simp only at h1
    split at h1
    · next hc => exact ⟨hc.2.2.1, hc.2.2.2⟩
    · cases h1
  -- `iread` aborts when offset and length wrap around
  have hrequest : pOffset ph ≤ f.length → pOffset ph + pFilesz ph < 2 ^ 32 := by
    intro hoff
    by_contra hw
    rw [h.fs, ho.wraps _ _ pFilesz_lt hoff (Nat.le_of_not_lt hw)] at h2
    cases h2
  obtain ⟨r', h3, h4⟩ := ho.reads (pOffset ph) (pFilesz ph) pFilesz_lt hrequest
  rw [h.fs, h3] at h2
  obtain ⟨rfl, rfl⟩ := Prod.mk.inj (Option.some.inj h2)
  have hlog : y.log = x.log ++ [written f ph] := by
    unfold written
    rw [← h4]
    exact (congrArg Loader.log (Option.some.inj he)).symm
  have hwritten : (written f ph).Inside := hin _ (by rw [hlog]; exact List.mem_append_right _ List.mem_cons_self)
  obtain ⟨hfile, hzeros⟩ := (written_inside hrange.1 hrange.2).1 hwritten
  refine ⟨⟨hrange.1, hrange.2, hrequest, hfile, hzeros⟩, ?_⟩
  rw [← hF₁.count]
  exact Nat.le_add_left _ _

end TinyOS
