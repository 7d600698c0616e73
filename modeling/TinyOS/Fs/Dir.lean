/-
Directories: the entries that the bytes of a directory make, what the scans of `ilookup` and
`idirempty` find in them, and what writing one entry changes.
-/
import Mathlib.Data.List.TakeWhile
import TinyOS.Fs.Content

namespace TinyOS.Fs

open TinyOS.Lib

variable {fs fs' : Fs} {m m' : Store} {i p n d j k : Nat} {name : List UInt8}

/-! ## Names -/

theorem cstr_append_zero {a b : List UInt8} (h : ∀ x ∈ a, x ≠ 0) : cstr (a ++ 0 :: b) = a := by
  unfold cstr
  rw [List.takeWhile_append_of_pos (by simpa using h), List.takeWhile_cons_of_neg (by simp), List.append_nil]

theorem cstr_nonzero {a : List UInt8} : ∀ x ∈ cstr a, x ≠ 0 := fun x hx => by
  have := List.mem_takeWhile_imp hx
  simpa using this

theorem cstr_strcpy {dst src : List UInt8} : cstr (strcpy dst src) = cstr src := cstr_append_zero cstr_nonzero

theorem cstr_length_le {a : List UInt8} : (cstr a).length ≤ a.length := (List.takeWhile_sublist _).length_le

theorem strcpy_length {dst src : List UInt8} (h : (cstr src).length < dst.length) :
    (strcpy dst src).length = dst.length := by
  unfold strcpy
  rw [List.length_append, List.length_cons, List.length_drop]
  omega

theorem cstr_eq_self {a : List UInt8} (h : 0 ∉ a) : cstr a = a :=
  List.takeWhile_eq_self_iff.2 fun x hx => by
    rw [decide_eq_true_eq]
    rintro rfl
    exact h hx

/-! ## Entries -/

theorem Dirent.bytes_length {e : Dirent} (h : e.name.length = 28) : e.bytes.length = 32 := by
  rw [bytes, List.length_append, Store.le32_length, h]

/-- An entry reads back as it was written. -/
theorem Dirent.ofBytes_bytes {e : Dirent} (hi : e.inode < 2 ^ 32) (h : e.name.length = 28) :
    Dirent.ofBytes e.bytes = e := by
  have h1 : Store.wordOf (le32 e.inode ++ e.name) = e.inode :=
    (show Store.wordOf (le32 e.inode ++ e.name) = Store.wordOf (le32 e.inode) from rfl).trans (Store.wordOf_le32 hi)
  have h2 : ((le32 e.inode ++ e.name).drop 4).take 28 = e.name := by
    rw [show 4 = (le32 e.inode).length from rfl, List.drop_left, List.take_of_length_le (by omega)]
  unfold ofBytes bytes
  rw [h1, h2]

/-- What stands at entry `j` of a directory. -/
def direntAt (m : Store) (d j : Nat) : Dirent := Dirent.ofBytes (bytesAt m d (32 * j) 32)

/-- The inode and the name of the valid entry `j` of a directory. -/
def entry (m : Store) (d j : Nat) : Option (Nat × List UInt8) :=
  if 32 * j + 32 ≤ (node m d).size ∧ (direntAt m d j).inode ≠ 0 then
    some ((direntAt m d j).inode, cstr (direntAt m d j).name)
  else none

theorem entry_some {nm : List UInt8} : entry m d j = some (n, nm) ↔
    32 * j + 32 ≤ (node m d).size ∧ n ≠ 0 ∧ (direntAt m d j).inode = n ∧ cstr (direntAt m d j).name = nm := by
  unfold entry
  split
  · next h =>
    rw [Option.some.injEq, Prod.mk.injEq]
    constructor
    · rintro ⟨rfl, rfl⟩
      exact ⟨h.1, h.2, rfl, rfl⟩
    · rintro ⟨-, -, h1, h2⟩
      exact ⟨h1, h2⟩
  · next h =>
    constructor
    · intro hc
      cases hc
    · rintro ⟨h1, h2, h3, -⟩
      exact absurd ⟨h1, h3 ▸ h2⟩ h

theorem entry_none_of_size (h : (node m d).size < 32 * j + 32) : entry m d j = none := if_neg fun hc => by omega

theorem direntAt_name : (direntAt m d j).name.length = 28 := by
  simp [direntAt, Dirent.ofBytes]

/-- The entries of an inode whose bytes are as before. -/
theorem entry_congr (hs : (node m' d).size = (node m d).size)
    (hb : ∀ o, o < (node m d).size → byteAt m' d o = byteAt m d o) : entry m' d j = entry m d j := by
  by_cases h : 32 * j + 32 ≤ (node m d).size
  · have hd : direntAt m' d j = direntAt m d j := by
      unfold direntAt
      rw [bytesAt_congr fun o ho => hb _ (by omega)]
    unfold entry
    rw [hs, hd]
  · rw [entry_none_of_size (by omega), entry_none_of_size (by omega)]

theorem Others.entry (h : Others i n fs fs') (hd : d < 1920) (hne : d ≠ n) :
    Fs.entry fs'.disk d j = Fs.entry fs.disk d j := by
  have hs : (Fs.node fs'.disk d).size = (Fs.node fs.disk d).size := by rw [h.node d hd hne]
  refine entry_congr hs fun o ho => ?_
  have hc := h.content d hd hne
  have h1 : o < (Fs.content fs'.disk d).length := by rw [content_length, hs]; exact ho
  have h2 : o < (Fs.content fs.disk d).length := by rw [content_length]; exact ho
  rw [← content_getElem h1, ← content_getElem h2]
  simp only [hc]

/-- Writing an entry: it replaces entry `j`, the others stand. -/
theorem Wrote.entry {e : Dirent} (h : Wrote p d (32 * j) e.bytes fs fs') (hd : d < 1920)
    (hoff : 32 * j ≤ (node fs.disk d).size) (hi : e.inode < 2 ^ 32) (hn : e.name.length = 28) :
    Fs.entry fs'.disk d k = if k = j then (if e.inode = 0 then none else some (e.inode, cstr e.name))
      else Fs.entry fs.disk d k := by
  have hlen := Dirent.bytes_length hn
  have hsize : (node fs'.disk d).size = max (node fs.disk d).size (32 * j + 32) := by
    rw [h.self, hlen]
  by_cases hk : k = j
  · subst hk
    have hde : direntAt fs'.disk d k = e := by
      have hb : bytesAt fs'.disk d (32 * k) 32 = e.bytes := by
        refine List.ext_getElem (by rw [bytesAt_length, hlen]) fun o h1 h2 => ?_
        rw [bytesAt_length] at h1
        rw [bytesAt_getElem, h.bytes d hd, if_pos rfl, patch_in (by omega) (by omega), Option.getD_some,
          Nat.add_sub_cancel_left]
        exact List.getD_eq_getElem _ _ h2
      unfold direntAt
      rw [hb, Dirent.ofBytes_bytes hi hn]
    rw [if_pos rfl]
    unfold Fs.entry
    rw [hde, hsize]
    by_cases h0 : e.inode = 0
    · rw [if_pos h0, if_neg fun hc => hc.2 h0]
    · rw [if_neg h0, if_pos ⟨by omega, h0⟩]
  · rw [if_neg hk]
    -- another entry: either it was in the directory or it is behind the end
    by_cases hin : 32 * k + 32 ≤ (node fs.disk d).size
    · have hde : direntAt fs'.disk d k = direntAt fs.disk d k := by
        unfold direntAt
        refine congrArg Dirent.ofBytes (bytesAt_congr fun o ho => ?_)
        rw [h.bytes d hd, if_pos rfl, patch_out (by omega)]
        rfl
      unfold Fs.entry
      rw [hde, hsize]
      exact if_congr (and_congr_left fun _ => by omega) rfl rfl
    · rw [entry_none_of_size (by omega), entry_none_of_size (by omega)]

/-! ## The scan of `ilookup` -/

/-- Reading an entry of a directory. -/
theorem iread_dirent (h : Layer fs p d) (h32 : (node fs.disk d).size % 32 = 0) (hj : 32 * j < (node fs.disk d).size)
    (de : Dirent) : ∃ bs, fs.iread p (32 * j) direntSize = some (some bs, fs) ∧
      Dirent.ofBytes (bs ++ de.bytes.drop bs.length) = direntAt fs.disk d j := by
  have hsize := h.mapped.size_le (h.inv.lt h.active)
  refine ⟨bytesAt fs.disk d (32 * j) 32, ?_, ?_⟩
  · rw [iread_eq h.inv h.mapped h.active (by omega) (by simp only [direntSize]; omega)]
    have hmin : min direntSize ((node fs.disk d).size - 32 * j) = 32 := by simp only [direntSize]; omega
    rw [hmin]
  · unfold direntAt Dirent.ofBytes
    have hl : (bytesAt fs.disk d (32 * j) 32).length = 32 := bytesAt_length
    -- a read gets all 32 bytes, so nothing is left of the old `dirent`
    have h1 : ∀ r : List UInt8, Store.wordOf (bytesAt fs.disk d (32 * j) 32 ++ r) =
        Store.wordOf (bytesAt fs.disk d (32 * j) 32) := fun r => by
      unfold Store.wordOf
      rw [List.getD_append _ _ _ _ (by omega), List.getD_append _ _ _ _ (by omega), List.getD_append _ _ _ _ (by omega),
        List.getD_append _ _ _ _ (by omega)]
    have h2 : ∀ r : List UInt8, ((bytesAt fs.disk d (32 * j) 32 ++ r).drop 4).take 28 =
        ((bytesAt fs.disk d (32 * j) 32).drop 4).take 28 := fun r => by
      rw [List.drop_append_of_le_length (by omega), List.take_append_of_le_length (by rw [List.length_drop]; omega)]
    rw [h1, h2]

/-- How the scan of a directory ends, from entry `j` on. -/
def Scanned (m : Store) (d : Nat) (name : List UInt8) (j empty : Nat) : Scan → Prop
  | .found off no => ∃ k, j ≤ k ∧ off = 32 * k ∧ entry m d k = some (no, cstr name)
  | .missing e empty' => (∀ k n, j ≤ k → entry m d k ≠ some (n, cstr name)) ∧ e.name.length = 28 ∧
      (empty ≠ (node m d).size → empty' = empty) ∧
      (empty = (node m d).size → ∃ k, empty' = 32 * k ∧ 32 * k ≤ (node m d).size ∧ entry m d k = none ∧
        ∀ l, j ≤ l → l < k → entry m d l ≠ none)

theorem ilookupLoop_eq (name : List UInt8) (h : Layer fs p d) (h32 : (node fs.disk d).size % 32 = 0) :
    ∀ (fuel j : Nat) (e : Dirent) (empty : Nat), 32 * j ≤ (node fs.disk d).size →
      (node fs.disk d).size / 32 < fuel + j → e.name.length = 28 →
      ∃ r, ilookupLoop p name (node fs.disk d).size fuel fs (32 * j) e empty = some (r, fs) ∧
        Scanned fs.disk d name j empty r
  | 0, j, _, _, hj, hf, _ => by omega
  | fuel + 1, j, e, empty, hj, hf, he => by
    unfold ilookupLoop
    by_cases hend : 32 * j ≥ (node fs.disk d).size
    · rw [if_pos hend]
      refine ⟨_, rfl, fun k n hk hc => ?_, he, fun _ => rfl, fun hs => ⟨j, by omega, hj, entry_none_of_size (by omega),
        fun l h1 h2 => by omega⟩⟩
      have := (entry_some.1 hc).1
      omega
    · rw [if_neg hend]
      obtain ⟨bs, hr, hde⟩ := iread_dirent h h32 (show 32 * j < (node fs.disk d).size by omega) e
      have hnext : 32 * j + direntSize = 32 * (j + 1) := by simp only [direntSize]; omega
      simp only [hr, Option.bind_eq_bind, Option.bind_some, Option.getD_some, hde, hnext]
      have hname : (direntAt fs.disk d j).name.length = 28 := direntAt_name
      have hfit : 32 * j + 32 ≤ (node fs.disk d).size := by omega
      by_cases h0 : (direntAt fs.disk d j).inode = 0
      · rw [if_pos h0]
        -- a free entry: the first one is kept in `empty`
        have hnone : entry fs.disk d j = none := if_neg fun hc => hc.2 h0
        obtain ⟨r, h1, h2⟩ := ilookupLoop_eq name h h32 fuel (j + 1) (direntAt fs.disk d j)
          (if empty = (node fs.disk d).size then 32 * j else empty) (by omega) (by omega) hname
        refine ⟨r, h1, ?_⟩
        cases r with
        | found off no =>
          obtain ⟨k, hk, h3, h4⟩ := h2
          exact ⟨k, by omega, h3, h4⟩
        | missing e' empty' =>
          obtain ⟨h3, h4, h5, h6⟩ := h2
          refine ⟨fun k n hk hc => ?_, h4, fun hne => ?_, fun heq => ?_⟩
          · by_cases hkj : k = j
            · rw [hkj, hnone] at hc; cases hc
            · exact h3 k n (by omega) hc
          · rw [if_neg hne] at h5
            exact h5 hne
          · rw [if_pos heq] at h5
            exact ⟨j, h5 (by omega), hj, hnone, fun l h1 h2 => by omega⟩
      · rw [if_neg h0]
        have hsome : entry fs.disk d j = some ((direntAt fs.disk d j).inode, cstr (direntAt fs.disk d j).name) :=
          if_pos ⟨hfit, h0⟩
        -- an entry in use: its name decides
        by_cases hn : cstr (direntAt fs.disk d j).name = cstr name
        · rw [if_pos hn]
          exact ⟨_, rfl, j, le_rfl, rfl, by rw [hsome, hn]⟩
        · rw [if_neg hn]
          obtain ⟨r, h1, h2⟩ := ilookupLoop_eq name h h32 fuel (j + 1) (direntAt fs.disk d j) empty
            (by omega) (by omega) hname
          refine ⟨r, h1, ?_⟩
          cases r with
          | found off no =>
            obtain ⟨k, hk, h3, h4⟩ := h2
            exact ⟨k, by omega, h3, h4⟩
          | missing e' empty' =>
            obtain ⟨h3, h4, h5, h6⟩ := h2
            refine ⟨fun k n hk hc => ?_, h4, h5, fun heq => ?_⟩
            · by_cases hkj : k = j
              · rw [hkj, hsome] at hc
                exact hn (Prod.mk.inj (Option.some.inj hc)).2
              · exact h3 k n (by omega) hc
            · obtain ⟨k, h7, h8, h9, hfirst⟩ := h6 heq
              refine ⟨k, h7, h8, h9, fun l h1 h2 => ?_⟩
              by_cases hlj : l = j
              · rw [hlj, hsome]
                exact Option.some_ne_none _
              · exact hfirst l (by omega) h2

/-! ## `idirempty` -/

theorem idiremptyLoop_eq (h : Layer fs p d) (h32 : (node fs.disk d).size % 32 = 0) :
    ∀ (fuel j : Nat) (e : Dirent), (node fs.disk d).size / 32 < fuel + j → 0 < fuel →
      ∃ b, idiremptyLoop p (node fs.disk d).size fuel fs (32 * j) e = some (b, fs) ∧
        (b = true ↔ ∀ k, j ≤ k → entry fs.disk d k = none)
  | 0, j, _, hf, h0 => absurd h0 (Nat.lt_irrefl 0)
  | fuel + 1, j, e, hf, _ => by
    unfold idiremptyLoop
    by_cases hend : 32 * j ≥ (node fs.disk d).size
    · rw [if_pos hend]
      exact ⟨true, rfl, fun _ k hk => entry_none_of_size (by omega), fun _ => rfl⟩
    · rw [if_neg hend]
      obtain ⟨bs, hr, hde⟩ := iread_dirent h h32 (show 32 * j < (node fs.disk d).size by omega) e
      have hnext : 32 * j + direntSize = 32 * (j + 1) := by simp only [direntSize]; omega
      simp only [hr, Option.bind_eq_bind, Option.bind_some, Option.getD_some, hde, hnext]
      by_cases h0 : (direntAt fs.disk d j).inode = 0
      · rw [if_neg (by rw [not_not]; exact h0)]
        obtain ⟨b, h1, h2⟩ := idiremptyLoop_eq h h32 fuel (j + 1) (direntAt fs.disk d j) (by omega)
          (by omega)
        refine ⟨b, h1, h2.trans ⟨fun hall k hk => ?_, fun hall k hk => hall k (by omega)⟩⟩
        by_cases hkj : k = j
        · rw [hkj]; exact if_neg fun hc => hc.2 h0
        · exact hall k (by omega)
      · rw [if_pos h0]
        refine ⟨false, rfl, fun hc => (by cases hc), fun hall => ?_⟩
        -- an entry in use ends the scan
        have hsome : entry fs.disk d j = some ((direntAt fs.disk d j).inode, cstr (direntAt fs.disk d j).name) :=
          if_pos ⟨by omega, h0⟩
        rw [hall j le_rfl] at hsome
        cases hsome

theorem idirempty_eq (h : Layer fs p d) (ht : (node fs.disk d).type = typeDir) (h32 : (node fs.disk d).size % 32 = 0) :
    ∃ b, fs.idirempty p = some (b, fs) ∧ (b = true ↔ ∀ k, 2 ≤ k → entry fs.disk d k = none) := by
  unfold idirempty
  rw [h.inv.dinode h.active]
  simp only [ht, ne_eq, not_true_eq_false, if_false]
  have hrec : (node fs.disk d).size / direntSize = (node fs.disk d).size / 32 := rfl
  exact idiremptyLoop_eq h h32 _ 2 _ (by omega) (by omega)

end TinyOS.Fs
