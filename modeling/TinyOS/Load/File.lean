/-
The file system under `load_elf`: the file is opened, read and closed, and the file system is as before.
-/
import TinyOS.Fs.Reads
import TinyOS.Fs.Reference
import TinyOS.Load.Basic

namespace TinyOS

open TinyOS.Lib TinyOS.Fs TinyOS.Mkfs

variable {fs fs₁ fs₂ : Fs} {x : Seat} {i n off len cwd : Nat} {name : List UInt8} {buf : Store} {f : List UInt8}

/-- The bytes of a file that a request asks for. -/
def filePart (f : List UInt8) (off len : Nat) : List UInt8 := (f.drop off).take len

theorem filePart_length : (filePart f off len).length = min len (f.length - off) := by
  unfold filePart
  rw [List.length_take, List.length_drop]

theorem filePart_get (hi : i < len) : (filePart f off len)[i]? = f[off + i]? := by
  unfold filePart
  rw [List.getElem?_take_of_lt hi, List.getElem?_drop]

/-- The file with the content `f` is open in slot `i`. -/
structure Opened (fs : Fs) (i : Nat) (f : List UInt8) : Prop where
  reads : ∀ off len, len < 2 ^ 32 → (off ≤ f.length → off + len < 2 ^ 32) →
    ∃ r, fs.iread i off len = some (r, fs) ∧ r.getD [] = filePart f off len
  wraps : ∀ off len, len < 2 ^ 32 → off ≤ f.length → 2 ^ 32 ≤ off + len → fs.iread i off len = none
  small : f.length ≤ 1036 * 4096

theorem Fs.Layer.opened (h : Layer fs i n) : Opened fs i (content fs.disk n) := by
  have hlt := h.inv.lt h.active
  have hsize := h.mapped.size_le hlt
  refine ⟨fun off len hlen hfit => ?_, fun off len hlen hoff hw => ?_, by rw [content_length]; exact hsize⟩
  · rw [content_length] at hfit
    have hr := (iread_exact h.inv h.active (h.mapped n hlt) hlen).2 hfit
    by_cases hoff : off ≤ (node fs.disk n).size
    · refine ⟨_, hr.reads hoff, ?_⟩
      show List.take (min len ((node fs.disk n).size - off)) _ = _
      rw [← content_length, ← List.length_drop, ← List.take_take, List.take_length]
      rfl
    · refine ⟨_, hr.fails (Nat.lt_of_not_le hoff), ?_⟩
      unfold filePart
      rw [List.drop_eq_nil_of_le (by rw [content_length]; omega), List.take_nil]
      rfl
  · rw [content_length] at hoff
    exact iread_wraps h.inv h.active hsize hoff hlen hw

/-- A header is read as far as the file goes. -/
theorem Opened.readLocal (h : Opened fs i f) (hlen : len ≤ 4096) :
    readLocal fs i off len buf = some (buf.write 0 (filePart f off len), fs) := by
  have hsmall := h.small
  obtain ⟨r, h1, h2⟩ := h.reads off len (by omega) fun hoff => by omega
  unfold TinyOS.readLocal
  rw [h1, ← h2]
  rfl

/-- The path leads to an inode with the content `f`, and the inode table has room to open it. -/
structure HasFile (fs : Fs) (cwd : Nat) (name f : List UInt8) : Prop where
  wellFormed : WellFormed fs
  opens : fs.iopen cwd name typeNone ≠ none
  leads : ∃ x n, (view fs).seat cwd = some x ∧ Leads (view fs) (start name x.no) name n ∧ (view fs).type n ≠ typeNone ∧
    content fs.disk n = f

/-- `iopen` and, with nothing but reads in between, `iclose`. -/
theorem HasFile.opened (h : HasFile fs cwd name f) : ∃ i fs₁ fs₂, fs.iopen cwd name typeNone = some (some i, fs₁) ∧
    Opened fs₁ i f ∧ fs₁.iclose i = some fs₂ ∧ Untouched fs fs₂ := by
  obtain ⟨x, n, hx, hn, ht, rfl⟩ := h.leads
  have hg := h.wellFormed.good
  have hdist := h.wellFormed.sound.distinct
  obtain ⟨⟨r, fs₁⟩, he⟩ := Option.ne_none_iff_exists'.1 h.opens
  rcases iopen_resolve hg hx he with ⟨-, -, -, -, hmiss, -⟩ | ⟨i, m, rfl, hroom, hv, hg₁, hlead, hd⟩ | ⟨htn, -⟩
  · exact absurd (hmiss hdist) (hn.not_missing hdist)
  · obtain rfl := hlead.unique hdist hn
    obtain ⟨y, hy, hym⟩ := hroom.get_some
    rw [← hv] at hy
    have hlayer : Layer fs₁ i y.no := hg₁.layer hy (by rw [hym, hv]; exact ht)
    rw [hym] at hlayer
    -- reads do not move the namespace, so that `iclose` finds what `iopen` left
    obtain ⟨fs₂, hclose, hv₂, hg₂, hd₂⟩ := iclose_get hg.ok hg₁ hroom hv
    have ho := hlayer.opened
    rw [hd] at ho
    exact ⟨i, fs₁, fs₂, he, ho, hclose, untouched_of hg hg₂ hv₂ (hd₂.trans hd)⟩
  · exact absurd rfl htn

/-- The image with one file of at most a block. -/
theorem hasFile_image (f : List UInt8) (hf : f.length ≤ 4096) : ∃ fs, HasFile fs 0 [slash, 97] f := by
  have hname : ∀ g ∈ [(([97] : List UInt8), f)], FileName g.1 ∧ g.1.length ≤ 27 := by
    simp [FileName, dot, dotdot, slash]
  have hfits : Fits [([97], f)] := by
    refine ⟨by simp, ?_, (by decide : 2 + 1 ≤ 1920), ?_⟩
    · intro g hg
      rw [List.mem_singleton.1 hg]
      exact le_trans hf (by decide)
    · have hblocks := blocks_mono hf
      have hroot : Mkfs.need [(([97] : List UInt8), f)] = 64 + blocks 96 + (blocks f.length + 0) := rfl
      have h1 : blocks 4096 = 1 := rfl
      have h2 : blocks 96 = 1 := rfl
      omega
  obtain ⟨m, hm⟩ := mkfs_fits (fun _ => 0) (List.cons_ne_nil _ _) hfits
  obtain ⟨-, hM⟩ := mount_mounted hm
  have hw := mounted_wellFormed hM hname (List.nodup_singleton _)
  have hx : (view (only m 1)).seat 0 = some ⟨1, 1, false⟩ := by rw [hM.seat, if_pos rfl]
  have hnone : ∀ i, i ≠ 0 → (view (only m 1)).seat i = none := fun i hi => by rw [hM.seat, if_neg hi]
  have hroot : (view (only m 1)).type 1 = typeDir := (hM.type 1).trans (if_pos rfl)
  have hslots : Enough (only m 1) typeNone :=
    ⟨⟨1, by decide, 2, by decide, by decide, hnone 1 (by decide), hnone 2 (by decide)⟩,
    fun hc => absurd rfl hc, fun hc => absurd rfl hc⟩
  obtain ⟨r, he⟩ := iopen_isSome [slash, 97] hw.good hw.live hw.sound hx (by decide) hslots
  refine ⟨only m 1, hw, Option.ne_none_iff_exists'.2 ⟨r, he⟩, ⟨1, 1, false⟩, 2, hx, ?_, ?_, hM.content 0 (by simp)⟩
  · refine .last 1 [97] ⟨hroot, rfl, rfl⟩ ⟨2, ?_⟩
    rw [hM.ent, if_pos rfl]
    rfl
  · rw [hM.type, if_neg (by decide), if_pos (by simp)]
    decide

end TinyOS
