/-
What the serial line delivers. The abstract side is a line editor: a text of completed lines and the
line that is being typed. The ring of `serial.c` holds the part of this text that nobody has read, so
the characters that `getchar` returns are the text from its start on.
-/
import TinyOS.Proc.Sched

namespace TinyOS.Kernel

open TinyOS.Lib TinyOS.Klib

variable {k k' : Kernel} {e : Event} {out : Out}

/-! ## The line editor -/

/-- The completed lines, and the line that is being typed. -/
structure Edited where
  done : List UInt8
  cur : List UInt8
  deriving DecidableEq

namespace Edited

def text (d : Edited) : List UInt8 := d.done ++ d.cur

/-- One byte: backspace and DEL remove a character, newline and return complete the line, a printable
character is appended, and every other byte is passed over. -/
def type (d : Edited) (ch : UInt8) : Edited :=
  if ch = 8 ∨ ch = 127 then { d with cur := d.cur.dropLast }
  else if ch = 10 ∨ ch = 13 then ⟨d.done ++ d.cur ++ [10], []⟩
  else if 32 ≤ ch ∧ ch < 127 then { d with cur := d.cur ++ [ch] }
  else d

def blank : Edited := ⟨[], []⟩

variable {d : Edited} {ch : UInt8}

theorem type_text_le : (d.type ch).text.length ≤ d.text.length + 1 := by
  unfold type text
  split
  · simp only [List.length_append, List.length_dropLast]
    omega
  · split
    · simp only [List.length_append, List.length_singleton, List.length_nil, Nat.add_zero]
      omega
    · split
      · simp only [List.length_append, List.length_singleton]
        omega
      · omega

theorem foldl_text_le (l : List UInt8) : ∀ d : Edited, (l.foldl type d).text.length ≤ d.text.length + l.length := by
  induction l with
  | nil => exact fun d => Nat.le_refl _
  | cons ch l ih =>
    intro d
    have h1 := ih (d.type ch)
    have h2 : (d.type ch).text.length ≤ d.text.length + 1 := type_text_le
    rw [List.foldl_cons, List.length_cons]
    omega

end Edited

/-- The concatenation of the lines that the bytes complete. -/
def lines (bytes : List UInt8) : List UInt8 := (bytes.foldl Edited.type .blank).done

/-- The bytes of one interrupt that are looked at: ESC empties the port. -/
def kept (bytes : List UInt8) : List UInt8 := bytes.takeWhile (· ≠ 0x1b)

/-- All bytes that an event brings. -/
def received : Event → List UInt8
  | .serial bytes => bytes
  | _ => []

/-- The bytes that an event brings, without those that ESC throws away. -/
def typed (e : Event) : List UInt8 := kept (received e)

/-! ## What is read -/

/-- The state in which `getchar` enters `pop_front`, and those in which the calls after it do. -/
def popsFrom (more : Kernel → List Kernel) (k : Kernel) : List Kernel :=
  k :: k.getcharRest.elim [] fun r => if r.1 = 10 then [] else more r.2

/-- The states in which `serial_read`, for `n` characters more, enters `pop_front`, in order. -/
def popsRead : Nat → Kernel → List Kernel
  | 0, _ => []
  | n + 1, k => (k.sys.semP .serial).elim [] fun sys =>
    if sys.status k.sys.curr = .blocked then [] else popsFrom (popsRead n) { k with sys := sys }

/-- The states in which the kernel enters `pop_front` while it handles an event. -/
def pops (k : Kernel) : Event → List Kernel
  | .read count => popsRead (uint32 count) k
  | .resume =>
    match k.cont k.sys.curr with
    | .read n _ => popsFrom (popsRead n) k
    | _ => []
  | _ => []

/-- The characters that `getchar` returns in an event. -/
def got (k : Kernel) (e : Event) : List UInt8 := (k.pops e).map fun k => k.popFront.1

theorem getcharRest_some {ch : UInt8} (h : k.getcharRest = some (ch, k')) : k.popFront = (ch, k') ∧ ch ≠ 0 := by
  have hk : (if k.popFront.1 = 0 then none else some k.popFront) = some (ch, k') := h
  by_cases h0 : k.popFront.1 = 0
  · rw [if_pos h0] at hk
    cases hk
  · rw [if_neg h0, Option.some.injEq] at hk
    refine ⟨hk, ?_⟩
    rw [hk] at h0
    exact h0

/-! ## The ring -/

/-- Of the text `d`, `l` has been read, and the ring holds the rest. -/
structure Holds (d : Edited) (l : List UInt8) (k : Kernel) : Prop where
  head : k.head = l.length
  clapboard : k.clapboard = d.done.length
  tail : k.tail = d.text.length
  read : l <+: d.done
  room : d.text.length ≤ l.length + 256
  small : d.text.length < 2 ^ 31
  cells : ∀ i, l.length ≤ i → i < d.text.length → d.text[i]? = some (k.buffer ((i % 256 : Nat) : Int))

variable {d : Edited} {l : List UInt8} {ch : UInt8}

/-- The serial line is as it was. -/
structure SameLine (k k' : Kernel) : Prop where
  buffer : k'.buffer = k.buffer
  head : k'.head = k.head
  tail : k'.tail = k.tail
  clapboard : k'.clapboard = k.clapboard

theorem SameLine.refl (k : Kernel) : SameLine k k := ⟨rfl, rfl, rfl, rfl⟩

theorem Holds.congr (h : Holds d l k) (hs : SameLine k k') : Holds d l k' := by
  refine ⟨hs.head ▸ h.head, hs.clapboard ▸ h.clapboard, hs.tail ▸ h.tail, h.read, h.room, h.small, ?_⟩
  rw [hs.buffer]
  exact h.cells

theorem cell (n : Nat) : ((n : Int)).tmod bufferSize = ((n % 256 : Nat) : Int) := by
  unfold bufferSize
  exact (Int.ofNat_tmod n 256).symm

theorem Edited.done_le (d : Edited) : d.done.length ≤ d.text.length := by
  unfold Edited.text
  rw [List.length_append]
  omega

/-- The cell of `head` holds the character behind those that were read. -/
theorem Holds.next (h : Holds d l k) (hlt : l.length < d.done.length) :
    d.done[l.length]? = some (k.buffer (k.head.tmod bufferSize)) := by
  have hle := d.done_le
  have hcell := h.cells l.length (Nat.le_refl _) (by omega)
  rw [h.head, cell, ← hcell]
  unfold Edited.text
  rw [List.getElem?_append_left hlt]

/-- Whatever is complete and unread is what `pop_front` gives next. -/
theorem Holds.popFront_eq (h : Holds d l k) (hch : l ++ [ch] <+: d.done) : k.popFront.1 = ch := by
  have hlen := hch.length_le
  rw [List.length_append, List.length_singleton] at hlen
  have hnext := h.next (by omega)
  have hget : d.done[l.length]? = some ch := by
    obtain ⟨t, ht⟩ := hch
    rw [← ht, List.append_assoc, List.getElem?_append_right (Nat.le_refl _), Nat.sub_self]
    rfl
  have hlt : k.head < k.clapboard := by
    rw [h.head, h.clapboard]
    omega
  unfold Kernel.popFront
  rw [if_pos hlt]
  exact Option.some.inj (hnext.symm.trans hget)

/-- `pop_front` gives the character behind those that were read. -/
theorem Holds.popFront (h : Holds d l k) (h0 : k.popFront.1 ≠ 0) : Holds d (l ++ [k.popFront.1]) k.popFront.2 := by
  unfold Kernel.popFront at h0 ⊢
  split at h0
  · next hlt =>
    rw [if_pos hlt]
    rw [h.clapboard, h.head] at hlt
    have hle := d.done_le
    have hsmall := h.small
    have hread := h.next (by omega)
    have hnext : l ++ [k.buffer (k.head.tmod bufferSize)] <+: d.done := by
      obtain ⟨t, ht⟩ := h.read
      rw [← ht, List.getElem?_append_right (Nat.le_refl _), Nat.sub_self] at hread
      cases t with
      | nil => cases hread
      | cons c t =>
        rw [List.getElem?_cons_zero, Option.some.injEq] at hread
        exact ⟨t, by rw [← ht, ← hread, List.append_assoc, List.singleton_append]⟩
    refine ⟨?_, h.clapboard, h.tail, hnext, ?_, h.small, fun i hi => h.cells i ?_⟩
    · show int32 (k.head + 1) = _
      rw [h.head, List.length_append, List.length_singleton, int32_of_range (by omega) (by omega)]
      push_cast
      rfl
    · rw [List.length_append, List.length_singleton]
      have := h.room
      omega
    · rw [List.length_append, List.length_singleton] at hi
      omega
  · exact absurd rfl h0

theorem Holds.getcharRest (h : Holds d l k) (hg : k.getcharRest = some (ch, k')) : Holds d (l ++ [ch]) k' := by
  obtain ⟨h1, h2⟩ := getcharRest_some hg
  have := h.popFront (by rw [h1]; exact h2)
  rw [h1] at this
  exact this

/-- Removing the last character that is typed. -/
theorem Holds.popBack (h : Holds d l k) : Holds { d with cur := d.cur.dropLast } l k.popBack.2 := by
  have htext : ({ d with cur := d.cur.dropLast } : Edited).text.length = d.text.length -
      (if d.cur = [] then 0 else 1) := by
    unfold Edited.text
    rw [List.length_append, List.length_append, List.length_dropLast]
    show d.done.length + (d.cur.length - 1) = _
    split
    · next hc => rw [hc]; rfl
    · next hc =>
      have := List.length_pos_iff.2 hc
      omega
  have hle := h.room
  have hsmall := h.small
  have hcells : ∀ i, l.length ≤ i → i < ({ d with cur := d.cur.dropLast } : Edited).text.length →
      ({ d with cur := d.cur.dropLast } : Edited).text[i]? = some (k.buffer ((i % 256 : Nat) : Int)) := by
    intro i hi hlt
    rw [← h.cells i hi (by omega)]
    have hpre : ({ d with cur := d.cur.dropLast } : Edited).text <+: d.text :=
      (List.prefix_append_right_inj _).2 (List.dropLast_prefix _)
    rw [List.prefix_iff_getElem?.1 hpre i hlt, List.getElem?_eq_getElem hlt]
  unfold Kernel.popBack
  split
  · next hlt =>
    rw [h.tail, h.clapboard] at hlt
    have hne : d.cur ≠ [] := fun hc => by
      unfold Edited.text at hlt
      rw [hc, List.append_nil] at hlt
      omega
    rw [if_neg hne] at htext
    have hpos : 0 < d.text.length := by omega
    refine ⟨h.head, h.clapboard, ?_, h.read, by omega, by omega, hcells⟩
    show int32 (k.tail - 1) = _
    rw [h.tail, htext, int32_of_range (by omega) (by omega)]
    omega
  · next hlt =>
    rw [h.tail, h.clapboard] at hlt
    have hnil : d.cur = [] := by
      refine List.eq_nil_of_length_eq_zero ?_
      unfold Edited.text at hlt
      rw [List.length_append] at hlt
      omega
    have hd : ({ d with cur := d.cur.dropLast } : Edited) = d := by
      rw [hnil, List.dropLast_nil, ← hnil]
    rw [hd]
    exact h

/-- The text one character on, where there is room for it. -/
theorem Holds.pushBack {d' : Edited} (h : Holds d l k) (ht : d'.text = d.text ++ [ch])
    (hd : d'.done = if ch = 10 then d'.text else d.done) (hroom : d'.text.length ≤ l.length + 256)
    (hsmall : d'.text.length < 2 ^ 31) (he : k.pushBack ch = some k') : Holds d' l k' := by
  have hlen : d'.text.length = d.text.length + 1 := by rw [ht, List.length_append, List.length_singleton]
  have hr : int32 (k.tail + 1) = d'.text.length := by
    rw [h.tail, hlen, int32_of_range (by omega) (by omega)]
    push_cast
    rfl
  -- the new cell is none of those that still hold unread characters
  have hcells : ∀ i, l.length ≤ i → i < d'.text.length →
      d'.text[i]? = some (Function.update k.buffer (k.tail.tmod bufferSize) ch ((i % 256 : Nat) : Int)) := by
    intro i hi hlt
    rw [h.tail, cell, ht]
    by_cases hit : i = d.text.length
    · subst hit
      rw [List.getElem?_append_right (Nat.le_refl _), Nat.sub_self, List.getElem?_cons_zero, Function.update_self]
    · have hne : ((i % 256 : Nat) : Int) ≠ ((d.text.length % 256 : Nat) : Int) := by omega
      rw [List.getElem?_append_left (by omega), Function.update_of_ne hne]
      exact h.cells i hi (by omega)
  have hread : l <+: d'.done := by
    split at hd
    · rw [hd, ht]
      exact h.read.trans ⟨d.cur ++ [ch], by unfold Edited.text; rw [List.append_assoc]⟩
    · rw [hd]
      exact h.read
  unfold Kernel.pushBack at he
  simp only at he
  split at he
  · next hch =>
    obtain ⟨s, -, hk⟩ := Option.bind_eq_some_iff.1 he
    cases hk
    rw [if_pos hch] at hd
    exact ⟨h.head, by rw [hd]; exact hr, hr, hread, hroom, hsmall, hcells⟩
  · next hch =>
    cases he
    rw [if_neg hch] at hd
    exact ⟨h.head, by rw [hd]; exact h.clapboard, hr, hread, hroom, hsmall, hcells⟩

/-- One byte that does not empty the port. -/
theorem Holds.byte {rest : List UInt8} (h : Holds d l k) (h0 : ch ≠ 0x1b)
    (hroom : (d.type ch).text.length ≤ l.length + 256) (hsmall : (d.type ch).text.length < 2 ^ 31)
    (he : serialHandle (ch :: rest) k = some k') :
    ∃ k₁, Holds (d.type ch) l k₁ ∧ serialHandle rest k₁ = some k' := by
  unfold serialHandle at he
  unfold Edited.type at hroom hsmall ⊢
  split at he
  · next hz =>
    subst hz
    exact ⟨k, h, he⟩
  · split at he
    · next hb =>
      rw [if_pos hb]
      exact ⟨_, h.popBack, he⟩
    · next hb =>
      rw [if_neg hb] at hroom hsmall ⊢
      simp only [Option.bind_eq_bind] at he
      by_cases hn : ch = 10 ∨ ch = 13
      · rw [if_pos hn] at hroom hsmall ⊢
        have hten : (if ch = 13 then (10 : UInt8) else ch) = 10 := by
          rcases hn with rfl | rfl
          · decide
          · decide
        rw [hten, if_pos (Or.inl rfl)] at he
        obtain ⟨k₁, h1, h2⟩ := Option.bind_eq_some_iff.1 he
        refine ⟨k₁, h.pushBack ?_ ?_ hroom hsmall h1, h2⟩
        · unfold Edited.text
          rw [List.append_nil]
        · rw [if_pos rfl]
          unfold Edited.text
          rw [List.append_nil]
      · rw [if_neg hn] at hroom hsmall ⊢
        have hne : ch ≠ 13 := fun hc => hn (Or.inr hc)
        have hten : ch ≠ 10 := fun hc => hn (Or.inl hc)
        rw [if_neg hne] at he
        split at he
        · next hp =>
          have hp' := hp.resolve_left hten
          rw [if_pos hp'] at hroom hsmall ⊢
          obtain ⟨k₁, h1, h2⟩ := Option.bind_eq_some_iff.1 he
          refine ⟨k₁, h.pushBack ?_ ?_ hroom hsmall h1, h2⟩
          · unfold Edited.text
            rw [List.append_assoc]
          · rw [if_neg hten]
        · next hp =>
          rw [if_neg fun hc => hp (Or.inr hc)]
          exact ⟨k, h, he⟩

/-- Room for what is typed, at every byte. -/
def Roomy (d : Edited) (l : List UInt8) (e : Event) : Prop :=
  ∀ pre, pre <+: typed e → (pre.foldl Edited.type d).text.length ≤ l.length + 256

/-- An interrupt: the ring holds the text that the editor makes of the bytes. -/
theorem serialHandle_holds : ∀ {bytes : List UInt8} {d : Edited} {k : Kernel}, Holds d l k →
    (∀ pre, pre <+: kept bytes → (pre.foldl Edited.type d).text.length ≤ l.length + 256) →
    d.text.length + bytes.length < 2 ^ 31 → serialHandle bytes k = some k' →
    Holds ((kept bytes).foldl Edited.type d) l k'
  | [], d, k, h, _, _, he => by
    cases he
    exact h
  | ch :: rest, d, k, h, hroom, hsmall, he => by
    rw [List.length_cons] at hsmall
    by_cases h0 : ch = 0x1b
    · subst h0
      unfold serialHandle at he
      rw [if_neg (by decide), if_pos rfl] at he
      cases he
      exact h
    · have hk : kept (ch :: rest) = ch :: kept rest := by
        unfold kept
        rw [List.takeWhile_cons_of_pos (by simpa using h0)]
      have hle : (d.type ch).text.length ≤ d.text.length + 1 := Edited.type_text_le
      rw [hk] at hroom ⊢
      obtain ⟨k₁, h1, h2⟩ := h.byte h0 (hroom [ch] (List.prefix_cons_inj ch |>.2 List.nil_prefix)) (by omega) he
      exact serialHandle_holds h1 (fun pre hp => hroom (ch :: pre) (List.prefix_cons_inj ch |>.2 hp)) (by omega) h2

/-! ## Reading -/

theorem SameLine.back {r : Reply} : SameLine k (k.back r) := ⟨rfl, rfl, rfl, rfl⟩

theorem serialRead_holds : ∀ {n : Nat} {more : List UInt8} {l : List UInt8} {k : Kernel}, Holds d l k →
    serialRead n more k = some (k', out) → Holds d (l ++ (popsRead n k).map fun k => k.popFront.1) k'
  | 0, more, l, k, h, he => by
    cases he
    unfold popsRead
    rw [List.map_nil, List.append_nil]
    exact h.congr .back
  | n + 1, more, l, k, h, he => by
    unfold serialRead at he
    unfold popsRead
    obtain ⟨s, hs, he⟩ := Option.bind_eq_some_iff.1 he
    rw [hs, Option.elim_some]
    split at he
    · next hb =>
      cases he
      rw [if_pos hb, List.map_nil, List.append_nil]
      exact h.congr ⟨rfl, rfl, rfl, rfl⟩
    · next hb =>
      obtain ⟨⟨ch, k₁⟩, hg, he⟩ := Option.bind_eq_some_iff.1 he
      have h' : Holds d l { k with sys := s } := h.congr ⟨rfl, rfl, rfl, rfl⟩
      have h₁ := h'.getcharRest hg
      obtain ⟨hpop, -⟩ := getcharRest_some hg
      unfold popsFrom
      rw [if_neg hb, hg, Option.elim_some, List.map_cons, hpop, List.append_cons]
      by_cases hch : ch = 10
      · simp only [if_pos hch, Option.some.injEq, Prod.mk.injEq] at he
        obtain ⟨rfl, rfl⟩ := he
        simp only [if_pos hch, List.map_nil, List.append_nil]
        exact h₁.congr .back
      · simp only [if_neg hch] at he ⊢
        exact serialRead_holds h₁ he

/-! ## The other events -/

theorem sysSleep_line {cur ticks : Nat} : SameLine k (k.sysSleep cur ticks).1 := by
  unfold Kernel.sysSleep
  split
  · exact ⟨rfl, rfl, rfl, rfl⟩
  · exact ⟨rfl, rfl, rfl, rfl⟩

theorem sysFork_line : SameLine k k.sysFork := by
  unfold Kernel.sysFork
  cases ha : k.procAlloc with
  | none => exact .back
  | some ck =>
    obtain ⟨-, -, -, hk⟩ := procAlloc_eq ha
    simp only
    rw [hk]
    exact ⟨rfl, rfl, rfl, rfl⟩

theorem procMakezombie_line {p : Nat} {v : Int} (he : k.procMakezombie p v = some k') : SameLine k k' := by
  unfold Kernel.procMakezombie at he
  obtain ⟨s, -, hk⟩ := Option.bind_eq_some_iff.1 he
  cases hk
  exact ⟨rfl, rfl, rfl, rfl⟩

theorem waitRest_line (he : k.waitRest = some k') : SameLine k k' := by
  unfold Kernel.waitRest at he
  obtain ⟨z, -, hk⟩ := Option.bind_eq_some_iff.1 he
  cases hk
  unfold Kernel.procFree
  split
  · exact ⟨rfl, rfl, rfl, rfl⟩
  · exact ⟨rfl, rfl, rfl, rfl⟩

theorem sysWait_line (he : k.sysWait = some (k', out)) : SameLine k k' := by
  unfold Kernel.sysWait at he
  simp only at he
  split at he
  · cases he
    exact .back
  · obtain ⟨s, -, he⟩ := Option.bind_eq_some_iff.1 he
    split at he
    · cases he
      exact ⟨rfl, rfl, rfl, rfl⟩
    · obtain ⟨k₁, hw, he⟩ := Option.bind_eq_some_iff.1 he
      cases he
      obtain ⟨h1, h2, h3, h4⟩ := waitRest_line hw
      exact ⟨h1, h2, h3, h4⟩

theorem sysSemOpen_line {v : Int} : SameLine k (k.sysSemOpen v) := by
  unfold Kernel.sysSemOpen
  simp only
  cases k.procAllocusem k.sys.curr with
  | none => exact .back
  | some j =>
    cases hb : k.usemAlloc v with
    | none => exact .back
    | some uk =>
      obtain ⟨u, -, rfl⟩ := Option.map_eq_some_iff.1 hb
      exact ⟨rfl, rfl, rfl, rfl⟩

theorem sysSemP_line {id : Int} (he : k.sysSemP id = some (k', out)) : SameLine k k' := by
  unfold Kernel.sysSemP at he
  simp only at he
  split at he
  · cases he
    exact .back
  · obtain ⟨s, -, he⟩ := Option.bind_eq_some_iff.1 he
    cases he
    exact ⟨rfl, rfl, rfl, rfl⟩

theorem sysSemV_line {id : Int} (he : k.sysSemV id = some k') : SameLine k k' := by
  unfold Kernel.sysSemV at he
  split at he
  · cases he
    exact .back
  · obtain ⟨s, -, he⟩ := Option.bind_eq_some_iff.1 he
    cases he
    exact ⟨rfl, rfl, rfl, rfl⟩

theorem sysSemClose_line {id : Int} : SameLine k (k.sysSemClose id) := by
  unfold Kernel.sysSemClose
  simp only
  split
  · exact .back
  · exact ⟨rfl, rfl, rfl, rfl⟩

/-- The events in which characters come or go. -/
def OnLine (k : Kernel) : Event → Prop
  | .serial _ => True
  | .read _ => True
  | .resume => ∃ n more, k.cont k.sys.curr = .read n more
  | _ => False

theorem handle_line (hn : ¬ OnLine k e) (he : k.handle e = some (k', out)) : SameLine k k' := by
  unfold Kernel.handle at he
  cases e with
  | yield =>
    cases he
    exact ⟨rfl, rfl, rfl, rfl⟩
  | sleep ticks =>
    have : SameLine k (k.sysSleep k.tick (uint32 ticks)).1 := sysSleep_line
    rw [Option.some.inj he] at this
    exact this
  | fork =>
    cases he
    exact sysFork_line
  | exec =>
    cases he
    exact .refl k
  | exit status =>
    obtain ⟨k₁, hk, he⟩ := Option.bind_eq_some_iff.1 he
    cases he
    exact procMakezombie_line hk
  | wait => exact sysWait_line he
  | semOpen value =>
    cases he
    exact sysSemOpen_line
  | semP id => exact sysSemP_line he
  | semV id =>
    obtain ⟨k₁, hk, he⟩ := Option.bind_eq_some_iff.1 he
    cases he
    exact sysSemV_line hk
  | semClose id =>
    cases he
    exact sysSemClose_line
  | read count => exact absurd trivial hn
  | timer =>
    cases he
    exact ⟨rfl, rfl, rfl, rfl⟩
  | serial bytes => exact absurd trivial hn
  | resume =>
    rcases resume_cases he with ⟨cur, ticks, -, hs⟩ | ⟨-, hw, rfl⟩ | ⟨n, more, -, -, hk, -⟩
    · have : SameLine k (k.sysSleep cur ticks).1 := sysSleep_line
      rw [hs] at this
      exact this
    · exact waitRest_line hw
    · exact absurd ⟨n, more, hk⟩ hn

/-- Nobody calls `pop_front` in the other events, and no byte comes. -/
theorem pops_nil (hn : ¬ OnLine k e) : k.pops e = [] := by
  cases e with
  | read count => exact absurd trivial hn
  | resume =>
    unfold pops
    simp only
    split
    · next n more hk => exact absurd ⟨n, more, hk⟩ hn
    · rfl
  | _ => rfl

theorem typed_nil (hn : ¬ OnLine k e) : typed e = [] := by
  cases e with
  | serial bytes => exact absurd trivial hn
  | _ => rfl

/-- What one event does to the text and to the ring. -/
theorem handle_holds (h : Holds d l k) (hroom : Roomy d l e) (hsmall : d.text.length + (received e).length < 2 ^ 31)
    (he : k.handle e = some (k', out)) : Holds ((typed e).foldl Edited.type d) (l ++ k.got e) k' := by
  by_cases hn : OnLine k e
  · cases e with
    | serial bytes =>
      obtain ⟨k₁, hk, he⟩ := Option.bind_eq_some_iff.1 he
      cases he
      show Holds _ (l ++ []) _
      rw [List.append_nil]
      exact serialHandle_holds h hroom hsmall hk
    | read count => exact serialRead_holds h he
    | resume =>
      obtain ⟨n', more', hk'⟩ := hn
      rcases resume_cases he with ⟨_, _, hk, -⟩ | ⟨hk, -⟩ | ⟨n, more, ch, k₁, hk, hg, hend⟩
      · rw [hk'] at hk
        cases hk
      · rw [hk'] at hk
        cases hk
      have h₁ := h.getcharRest hg
      obtain ⟨hpop, -⟩ := getcharRest_some hg
      have hgot : k.got .resume = ch :: ((if ch = 10 then [] else popsRead n k₁).map fun k => k.popFront.1) := by
        unfold got pops popsFrom
        rw [hk]
        simp only
        rw [hg, Option.elim_some, List.map_cons, hpop]
      show Holds d (l ++ k.got .resume) k'
      rw [hgot, List.append_cons]
      rcases hend with ⟨hch, rfl, rfl⟩ | ⟨hch, hread⟩
      · rw [if_pos hch, List.map_nil, List.append_nil]
        exact h₁.congr .back
      · rw [if_neg hch]
        exact serialRead_holds h₁ hread
    | _ => exact hn.elim
  · unfold got
    rw [pops_nil hn, typed_nil hn, List.map_nil, List.append_nil]
    exact h.congr (handle_line hn he)

/-! ## Runs -/

/-- A kernel, with what was typed so far and what was read. -/
structure Session where
  kernel : Kernel
  typed : Edited
  got : List UInt8

/-- `none`: the event cannot happen now, or the kernel stops in it. -/
def Session.advance (s : Session) (e : Event) : Option Session :=
  (s.kernel.step e).map fun k => ⟨k, (Kernel.typed e).foldl Edited.type s.typed, s.got ++ s.kernel.got e⟩

def Session.Step (s : Session) (e : Event) (s' : Session) : Prop := s.advance e = some s'

/-- The steps in which at no byte more than `BUFFER_SIZE` characters have come that nobody has read. -/
def RoomyStep (s : Session) (e : Event) (s' : Session) : Prop := s.Step e s' ∧ Roomy s.typed s.got e

def Session.start (k : Kernel) : Session := ⟨k, .blank, []⟩

theorem step_line (hs : Step k e k') : ∃ k₁ out, k.handle e = some (k₁, out) ∧ SameLine k₁ k' := by
  unfold Step step at hs
  split at hs
  · obtain ⟨⟨k₁, out⟩, hh, hs⟩ := Option.bind_eq_some_iff.1 hs
    refine ⟨k₁, out, hh, ?_⟩
    simp only at hs
    split at hs
    · unfold Kernel.schedule at hs
      obtain ⟨q, -, rfl⟩ := Option.map_eq_some_iff.1 hs
      exact ⟨rfl, rfl, rfl, rfl⟩
    · cases hs
      exact .refl _
  · cases hs

theorem boot_line {k₀ : Kernel} (hb : boot = some k₀) : Holds .blank [] k₀ := by
  unfold boot initUserAndGo at hb
  obtain ⟨⟨p, k₁⟩, ha, hk⟩ := Option.bind_eq_some_iff.1 hb
  obtain ⟨-, -, -, rfl⟩ := procAlloc_eq ha
  cases hk
  exact ⟨rfl, rfl, rfl, List.prefix_rfl, by decide, by decide, fun i _ hi => absurd hi (Nat.not_lt_zero i)⟩

/-- All bytes that the events bring. -/
def bytes (es : List Event) : List UInt8 := es.flatMap received

theorem bytes_snoc {es : List Event} : bytes (es ++ [e]) = bytes es ++ received e := by
  unfold bytes
  rw [List.flatMap_append, List.flatMap_singleton]

theorem run_holds {k₀ : Kernel} {es : List Event} {s : Session} (hb : boot = some k₀)
    (hrun : Run RoomyStep (.start k₀) es s) : (bytes es).length < 2 ^ 31 →
    s.typed = (es.flatMap typed).foldl Edited.type .blank ∧ s.typed.text.length ≤ (bytes es).length ∧
      Holds s.typed s.got s.kernel := by
  refine Run.invariant_log (I := fun es s => (bytes es).length < 2 ^ 31 →
    s.typed = (es.flatMap typed).foldl Edited.type .blank ∧ s.typed.text.length ≤ (bytes es).length ∧
      Holds s.typed s.got s.kernel) (fun es s e t ih hst hlt => ?_) hrun fun _ => ⟨rfl, Nat.le_refl _, boot_line hb⟩
  obtain ⟨hadv, hroom⟩ := hst
  obtain ⟨k₁, hs, rfl⟩ := Option.map_eq_some_iff.1 hadv
  rw [bytes_snoc, List.length_append] at hlt ⊢
  obtain ⟨h1, h2, h3⟩ := ih (by omega)
  obtain ⟨k₂, out, hh, hl⟩ := step_line hs
  refine ⟨?_, ?_, (handle_holds h3 hroom (by omega) hh).congr hl⟩
  · rw [List.flatMap_append, List.foldl_append, ← h1, List.flatMap_singleton]
  · have hle := Edited.foldl_text_le (typed e) s.typed
    have hk : (typed e).length ≤ (received e).length := (List.takeWhile_prefix _).length_le
    show ((typed e).foldl Edited.type s.typed).text.length ≤ _
    omega

/-- Line input is delivered completely and in order: while there is room in the ring, the characters
that all calls of `getchar` return are, in order, the beginning of the completed lines, the ring holds
the rest of the text, cell by cell, and the next character of the lines is what `pop_front` gives next. -/
theorem lines_delivered {k₀ : Kernel} {es : List Event} {s : Session} (hb : boot = some k₀)
    (hrun : Run RoomyStep (.start k₀) es s) (hlt : (bytes es).length < 2 ^ 31) :
    s.got <+: lines (es.flatMap typed) ∧
      Holds ((es.flatMap typed).foldl Edited.type .blank) s.got s.kernel ∧
      ∀ ch, s.got ++ [ch] <+: lines (es.flatMap typed) → s.kernel.popFront.1 = ch := by
  obtain ⟨h1, -, h2⟩ := run_holds hb hrun hlt
  rw [h1] at h2
  exact ⟨h2.read, h2, fun ch hch => h2.popFront_eq hch⟩

/-- An event that brings so little that there is room at every byte. -/
theorem Roomy.of_le (h : d.text.length + (typed e).length ≤ l.length + 256) : Roomy d l e := by
  intro pre hp
  have h1 := Edited.foldl_text_le pre d
  have h2 := hp.length_le
  omega

theorem roomy_run {k₀ : Kernel} {es : List Event} {s : Session}
    (h : es.foldlM
      (fun s e => if s.typed.text.length + (typed e).length ≤ s.got.length + 256 then s.advance e else none)
      (Session.start k₀) = some s) : Run RoomyStep (.start k₀) es s := by
  refine (Run.of_foldlM h).mono fun s e t hs => ?_
  split at hs
  · next hle => exact ⟨hs, .of_le hle⟩
  · cases hs

/-- Process 1 reads a line in which a character was corrected, and one of the two characters of the next
line: the newline is what `pop_front` gives next. -/
theorem lines_delivered_demo : ∃ k₀ s, boot = some k₀ ∧
    Run RoomyStep (.start k₀) [.timer, .serial [104, 105, 8, 33, 13, 120, 13], .read 9, .read 1] s ∧
      s.got = [104, 33, 10, 120] ∧ Holds ⟨[104, 33, 10, 120, 10], []⟩ s.got s.kernel ∧ s.kernel.popFront.1 = 10 := by
  have hev : (boot.bind fun k₀ => [Event.timer, .serial [104, 105, 8, 33, 13, 120, 13], .read 9, .read 1].foldlM
      (fun s e => if s.typed.text.length + (typed e).length ≤ s.got.length + 256 then s.advance e else none)
      (Session.start k₀)).any (fun s => decide (s.got = [104, 33, 10, 120])) = true := by decide +kernel
  obtain ⟨s, hs, hgot⟩ := (Option.any_eq_true _ _).1 hev
  obtain ⟨k₀, hb, hs⟩ := Option.bind_eq_some_iff.1 hs
  have hrun := roomy_run hs
  have hgot := of_decide_eq_true hgot
  obtain ⟨-, h1, h2⟩ := lines_delivered hb hrun (by decide)
  refine ⟨k₀, s, hb, hrun, hgot, h1, h2 10 ?_⟩
  rw [hgot]
  decide

/-- ESC throws away what has come behind it, and the first character of a line is lost when the line
is longer than the ring. -/
theorem lines_lost : ∃ k₀ s s', boot = some k₀ ∧
    Run Session.Step (.start k₀) [.timer, .serial [27, 97, 10], .serial [98, 10], .read 1] s ∧
    ¬ s.got <+: lines (bytes [.timer, .serial [27, 97, 10], .serial [98, 10], .read 1]) ∧
    Run Session.Step (.start k₀) [.timer, .serial (97 :: List.replicate 255 98 ++ [10]), .read 1] s' ∧
    ¬ s'.got <+: lines (bytes [.timer, .serial (97 :: List.replicate 255 98 ++ [10]), .read 1]) := by
  have hev : (boot.bind fun k₀ => [Event.timer, .serial [27, 97, 10], .serial [98, 10], .read 1].foldlM Session.advance
      (.start k₀)).any (fun s => decide (s.got = [98])) = true := by decide +kernel
  have hev' : (boot.bind fun k₀ => [Event.timer, .serial (97 :: List.replicate 255 98 ++ [10]),
    .read 1].foldlM Session.advance
      (.start k₀)).any (fun s => decide (s.got = [10])) = true := by decide +kernel
  obtain ⟨s, hs, hgot⟩ := (Option.any_eq_true _ _).1 hev
  obtain ⟨k₀, hb, hs⟩ := Option.bind_eq_some_iff.1 hs
  rw [hb] at hev'
  obtain ⟨s', hs', hgot'⟩ := (Option.any_eq_true _ _).1 hev'
  refine ⟨k₀, s, s', hb, Run.of_foldlM hs, ?_, Run.of_foldlM hs', ?_⟩
  · rw [of_decide_eq_true hgot]
    decide +kernel
  · rw [of_decide_eq_true hgot']
    decide +kernel

end TinyOS.Kernel
