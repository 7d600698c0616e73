/-
The loop over the program headers: which headers it finds in the file, and the run of the segments that it
loads.
-/
import TinyOS.Lib.Run
import TinyOS.Load.Segment

namespace TinyOS

open TinyOS.Lib TinyOS.Vm Phdr

variable {fs : Fs} {D K : Nat → Prop} {P Q : Finset Nat} {x y : Loader} {ph : Phdr} {f : List UInt8} {l : List Phdr}
  {d i k n w phoff total : Nat}

/-! ## The headers -/

/-- Header number `k`, over what the variable held before. -/
def header (f : List UInt8) (phoff k : Nat) (ph : Phdr) :
    Phdr := ph.write 0 (filePart f (uint32 (phoff + k * phdrSize)) phdrSize)

/-- What the variable holds in each of `n` turns from number `k` on. -/
def headers (f : List UInt8) (phoff : Nat) : (n k : Nat) → Phdr → List Phdr
  | 0, _, _ => []
  | n + 1, k, ph => header f phoff k ph :: headers f phoff n (k + 1) (header f phoff k ph)

/-- Those to load. -/
def loadable (l : List Phdr) : List Phdr := l.filter fun ph => pType ph = ptLoad

theorem loadable_pos (h : pType ph = ptLoad) : loadable (ph :: l) = ph :: loadable l :=
  List.filter_cons_of_pos (decide_eq_true h)

theorem loadable_neg (h : pType ph ≠ ptLoad) : loadable (ph :: l) = loadable l :=
  List.filter_cons_of_neg (by rw [decide_eq_true_iff]; exact h)

/-- The pages `P` and those of the segments. -/
def pagesFrom (P : Finset Nat) (l : List Phdr) : Finset Nat :=
  l.foldl (fun P ph => P ∪ rangePages (pVaddr ph) (pMemsz ph)) P

theorem pagesFrom_cons : pagesFrom P (ph :: l) = pagesFrom (P ∪ rangePages (pVaddr ph) (pMemsz ph)) l := rfl

theorem pagesFrom_snoc : pagesFrom P (l ++ [ph]) = pagesFrom P l ∪ rangePages (pVaddr ph) (pMemsz ph) := by
  unfold pagesFrom
  rw [List.foldl_append]
  rfl

theorem mem_pagesFrom : w ∈ pagesFrom P l ↔ w ∈ P ∨ ∃ ph ∈ l, InRange (pVaddr ph) (pMemsz ph) w := by
  induction l generalizing P with
  | nil => simp [pagesFrom]
  | cons ph l ih =>
    rw [pagesFrom_cons, ih, Finset.mem_union, mem_rangePages, or_assoc, List.exists_mem_cons_iff]

theorem subset_pagesFrom : P ⊆ pagesFrom P l := fun _ hw => mem_pagesFrom.2 (Or.inl hw)

/-! ## The loop -/

/-- A turn that loads a segment, and the pages that are mapped before and after it. -/
structure LoadStep (fs : Fs) (D K : Nat → Prop) (f : List UInt8) (d total : Nat) (s : Loader × Finset Nat) (ph : Phdr)
    (t : Loader × Finset Nat) : Prop where
  before : Loading s.1 fs D K d s.2 total
  after : Loading t.1 fs D K d t.2 total
  pages : t.2 = s.2 ∪ rangePages (pVaddr ph) (pMemsz ph)
  loaded : Loaded s.1 t.1 f d ph

theorem Loading.step (h : Loading x fs D K d P total) (hd : D d) (ho : Opened fs i f) (ok : SegOk f.length ph)
    (hneed : need (P ∪ rangePages (pVaddr ph) (pMemsz ph)) ≤ total) :
    ∃ y, x.loadSegment d i ph = some y ∧ LoadStep fs D K f d total (x, P) ph (y,
      P ∪ rangePages (pVaddr ph) (pMemsz ph)) := by
  obtain ⟨y, h1, h2, h3⟩ := h.loadSegment hd ho ok hneed
  exact ⟨y, h1, h, h2, rfl, h3⟩

/-- One turn: the header is read, and its segment is loaded or not. -/
theorem Loading.turn (h : Loading x fs D K d P total) (ho : Opened fs i f) :
    Loader.loadSegments d i phoff (n + 1) k ph x =
      (if pType (header f phoff k ph) = ptLoad then x.loadSegment d i (header f phoff k ph) else some x).bind
        (Loader.loadSegments d i phoff n (k + 1) (header f phoff k ph)) := by
  have hself : (⟨x.vm, fs, x.log⟩ : Loader) = x := by
    rw [← h.fs]
  rw [Loader.loadSegments, h.fs, ho.readLocal (by decide)]
  have hheader : Store.write ph 0 (filePart f (uint32 (phoff + k * phdrSize)) phdrSize) = header f phoff k ph := rfl
  simp only [Option.bind_eq_bind, Option.bind_some, hself, Option.pure_def, hheader]
  split <;> rfl

theorem Loading.loadSegments (h : Loading x fs D K d P total) (hd : D d) (ho : Opened fs i f)
    (hok : ∀ p ∈ loadable (headers f phoff n k ph), SegOk f.length p)
    (hneed : need (pagesFrom P (loadable (headers f phoff n k ph))) ≤ total) :
    ∃ y, Loader.loadSegments d i phoff n k ph x = some y ∧
      Loading y fs D K d (pagesFrom P (loadable (headers f phoff n k ph))) total ∧
      Run (LoadStep fs D K f d total) (x, P) (loadable (headers f phoff n k ph))
        (y, pagesFrom P (loadable (headers f phoff n k ph))) := by
  -- the variable that the headers are read into keeps its bytes, so it is general as well
  induction n generalizing k ph x P with
  | zero => exact ⟨x, rfl, h, .nil⟩
  | succ n ih =>
    rw [h.turn ho]
    unfold headers at hok hneed ⊢
    by_cases hl : pType (header f phoff k ph) = ptLoad
    · rw [loadable_pos hl] at hok hneed ⊢
      rw [pagesFrom_cons] at hneed ⊢
      obtain ⟨y, hy, hs⟩ := h.step hd ho (hok _ List.mem_cons_self) (le_trans (need_mono subset_pagesFrom) hneed)
      obtain ⟨z, hz, hload, hrun⟩ := ih hs.after (fun p hp => hok p (List.mem_cons_of_mem _ hp)) hneed
      refine ⟨z, ?_, hload, (Run.single hs).append hrun⟩
      rw [if_pos hl, hy]
      exact hz
    · rw [loadable_neg hl] at hok hneed ⊢
      obtain ⟨z, hz, hrest⟩ := ih h hok hneed
      refine ⟨z, ?_, hrest⟩
      rw [if_neg hl]
      exact hz

theorem Loader.loadSegments_log (he : Loader.loadSegments d i phoff n k ph x = some y) : x.log ⊆ y.log := by
  induction n generalizing k ph x with
  | zero =>
    cases he
    exact fun _ ht => ht
  | succ n ih =>
    unfold Loader.loadSegments at he
    obtain ⟨⟨ph', fs'⟩, -, he⟩ := Option.bind_eq_some_iff.1 he
    simp only at he
    split at he
    · obtain ⟨z, hz, he⟩ := Option.bind_eq_some_iff.1 he
      have hlog := Loader.loadSegment_log hz
      exact List.Subset.trans hlog (ih he)
    · have hlog := ih he
      exact hlog

/-- The converse: the headers of what is loaded with all stores inside are in order. -/
theorem Loading.segsOk (h : Loading x fs D K d P total) (hd : D d) (ho : Opened fs i f)
    (he : Loader.loadSegments d i phoff n k ph x = some y) (hin : ∀ t ∈ y.log, t.Inside) :
    (∀ p ∈ loadable (headers f phoff n k ph), SegOk f.length p) ∧
      Loading y fs D K d (pagesFrom P (loadable (headers f phoff n k ph))) total := by
  induction n generalizing k ph x P with
  | zero =>
    cases he
    exact ⟨fun p hp => absurd hp List.not_mem_nil, h⟩
  | succ n ih =>
    rw [h.turn ho] at he
    obtain ⟨z, hz, he⟩ := Option.bind_eq_some_iff.1 he
    unfold headers
    split at hz
    · next hl =>
      -- what the segment wrote is still in the log at the end
      have hin' : ∀ t ∈ z.log, t.Inside := fun t ht => hin t (Loader.loadSegments_log he ht)
      obtain ⟨hok, hneed⟩ := h.segOk hd ho hz hin'
      obtain ⟨z', hz', hs⟩ := h.step hd ho hok hneed
      cases hz.symm.trans hz'
      obtain ⟨hrest, hload⟩ := ih hs.after he
      rw [loadable_pos hl]
      exact ⟨List.forall_mem_cons.2 ⟨hok, hrest⟩, hload⟩
    · next hl =>
      cases hz
      rw [loadable_neg hl]
      exact ih h he

end TinyOS
