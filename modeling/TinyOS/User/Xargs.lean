/-
The program xargs (user/src/phase6/xargs.c): two tokenisers, over the lines of its input and over the words of a
line, that share the one cursor of `strtok`.
-/
import TinyOS.User.Strtok

namespace TinyOS.Xargs

open TinyOS.Lib TinyOS.Strtok

abbrev maxArg : Nat := 31

abbrev bufSize : Nat := 4096

/-- `"\n"` and `" \t"`. -/
def newline : List UInt8 := [10]

def blanks : List UInt8 := [32, 9]

/-- `exit(1)` behind a message. -/
inductive Stop
  | operand
  | malloc
  | argv
  | fork
  deriving DecidableEq

def Stop.message : Stop → String
  | operand => "xargs: missing operand\n"
  | malloc => "xargs: malloc failed\n"
  | argv => "xargs: too many argv\n"
  | fork => "xargs: fork failed\n"

/-- A child's `exec(file, argv)`. -/
structure Exec where
  file : List UInt8
  argv : List (List UInt8)
  deriving DecidableEq

/-! ## xargs.c

A loop that takes more than `fuel` turns has left the memory there is. -/

def strlen (fuel : Nat) (m : Store) (s : Nat) : Option Nat := (scan m (· ≠ 0) fuel s).map (· - s)

/-- The string that `exec` finds at a pointer, and those of an `argv` up to its NULL. -/
def string (fuel : Nat) (m : Store) (s : Nat) : Option (List UInt8) := (strlen fuel m s).map (m.read s)

def strings (fuel : Nat) (m : Store) : (argv : List (Option Nat)) → Option (List (List UInt8))
  | [] => none
  | none :: _ => some []
  | some s :: argv => do
    let a ← string fuel m s
    let l ← strings fuel m argv
    return a :: l

/-- The `do` loop of `parse_arg`. -/
def parseLoop (fuel : Nat) : (calls args argc : Nat) → (argv : List (Option Nat)) → St →
    Option (Except Stop (List (Option Nat) × St))
  | 0, _, _, _, _ => none
  | calls + 1, args, argc, argv, σ =>
    let argv := argv.set argc (some args)
    let argc := argc + 1
    if argc > maxArg then some (.error .argv)
    else do
      match ← strtok fuel none blanks σ with
      | (some args, σ) => parseLoop fuel calls args argc argv σ
      | (none, σ) => return .ok (argv.set argc none, σ)

def parseArg (fuel args argc : Nat) (argv : List (Option Nat)) (σ : St) :
    Option (Except Stop (List (Option Nat) × St)) :=
  if σ.mem args = 0 then some (.ok (argv, σ))
  else do
    let (_, σ) ← strtok fuel (some args) blanks σ
    parseLoop fuel fuel args argc argv σ

/-- The parent's `fork` number `n` returns `fork n`. -/
def execAnother (fork : Nat → Int) (n fuel file : Nat) (argv : List (Option Nat)) (m : Store) :
    Option (Except Stop Exec) :=
  if fork n = -1 then some (.error .fork)
  else do
    let f ← string fuel m file
    let a ← strings fuel m argv
    return .ok ⟨f, a⟩

/-- `next_line`, NULL behind the end of the input. -/
def nextLine (fuel : Nat) (m : Store) (thisLine last : Nat) : Option (Option Nat) :=
  (strlen fuel m thisLine).map fun n => if thisLine + n + 1 > last then none else some (thisLine + n + 1)

/-- The `while` loop of `exec_by_args`. -/
def lineLoop (fork : Nat → Int) (fuel last file argc : Nat) : (turns n thisLine : Nat) → (next : Option Nat) →
    (argv : List (Option Nat)) → St → Option (List Exec × Option Stop)
  | 0, _, _, _, _, _ => none
  | turns + 1, n, thisLine, next, argv, σ => do
    match ← parseArg fuel thisLine argc argv σ with
    | .error e => return ([], some e)
    | .ok (argv, σ) =>
      match ← execAnother fork n fuel file argv σ.mem with
      | .error e => return ([], some e)
      | .ok x =>
        match ← strtok fuel next newline σ with
        | (none, _) => return ([x], none)
        | (some thisLine, σ) =>
          let next ← nextLine fuel σ.mem thisLine last
          let (l, r) ← lineLoop fork fuel last file argc turns (n + 1) thisLine next argv σ
          return (x :: l, r)

def execByArgs (fork : Nat → Int) (fuel args file argc : Nat) (argv : List (Option Nat)) (σ : St) :
    Option (List Exec × Option Stop) := do
  let last := args + (← strlen fuel σ.mem args)
  match ← strtok fuel (some args) newline σ with
  | (none, _) => return ([], none)
  | (some thisLine, σ) => lineLoop fork fuel last file argc fuel 0 thisLine (← nextLine fuel σ.mem thisLine last) argv σ

/-- The `while` loop of `main`: the buffer grows as long as `read` fills its second half. `malloc` number `n` returns
`malloc n`, and its result is used without a test. -/
def grow (malloc : Nat → Option Nat) : (turns n buf size : Nat) → (input : List UInt8) → Store → Option (Nat × Store)
  | 0, _, _, _, _, _ => none
  | turns + 1, n, buf, size, input, m => do
    let got := input.take (size / 2)
    let m := m.write (buf + size / 2) got
    if got.length = size / 2 then
      let new ← malloc n
      grow malloc turns (n + 1) new (size * 2) (input.drop (size / 2)) (m.write new (m.read buf size))
    else return (buf, m)

/-- The commands that run, and the message when it is not `exit(0)` that ends the run. `static_buf` is at `buf` and
`new_argv` has `maxArg + 1` entries, NULL at the start. -/
def main (fork : Nat → Int) (malloc : Nat → Option Nat) (fuel buf : Nat) (argv : List Nat) (input : List UInt8)
    (m : Store) :
    Option (List Exec × Option Stop) :=
  match argv with
  | _ :: file :: args =>
    let newArgv := (file :: args).map some ++ (List.replicate (maxArg + 1) none).drop (args.length + 1)
    let got := input.take bufSize
    let σ : St := ⟨m.write buf got, none⟩
    if got.length < bufSize then execByArgs fork fuel buf file (args.length + 1) newArgv σ
    else
      match malloc 0 with
      | none => some ([], some .malloc)
      | some new => do
        let (buf, m) ← grow malloc fuel 1 new (bufSize * 2) (input.drop bufSize) (σ.mem.write new got)
        execByArgs fork fuel buf file (args.length + 1) newArgv ⟨m, none⟩
  | _ => some ([], some .operand)

/-! ## What it is for -/

def lines (input : List UInt8) : List (List UInt8) := input.splitOnP (· ∈ newline)

def words (line : List UInt8) : List (List UInt8) := runs (· ∈ blanks) line

/-- One command for each line with a word in it. -/
def commands (file : List UInt8) (args : List (List UInt8)) (input : List UInt8) : List Exec :=
  ((lines input).filter fun l => l.any (· ∉ blanks)).map fun l => ⟨file, file :: (args ++ words l)⟩

/-- The arguments that `parse_arg` makes of a line: the first one starts where the line does. -/
def made (line : List UInt8) : List (List UInt8) :=
  match words line with
  | [] => [line]
  | w :: ws => (line.takeWhile (· ∈ blanks) ++ w) :: ws

variable {fork : Nat → Int} {malloc : Nat → Option Nat} {m : Store} {σ : St} {e : Stop}
  {fuel calls turns a b c n argc buf file last thisLine : Nat} {argv tail : List (Option Nat)} {ps : List Nat}
  {s t line input : List UInt8} {ss : List (List UInt8)}

/-! ## Strings -/

theorem strlen_eq (h : Str m a s) (hf : s.length < fuel) : strlen fuel m a = some s.length := by
  have hs : scan m (fun c => decide (c ≠ 0)) fuel a = some (a + s.length) := by
    refine scan_iff.2 ⟨by omega, by omega, by simpa using h.nul, fun i h1 h2 => ?_⟩
    obtain ⟨j, rfl⟩ := Nat.exists_eq_add_of_le h1
    rw [h.get (by omega)]
    exact decide_eq_true fun h0 => h.mem (h0 ▸ List.getElem_mem _)
  unfold strlen
  rw [hs, Option.map_some, Nat.add_sub_cancel_left]

theorem string_eq (h : Str m a s) (hf : s.length < fuel) : string fuel m a = some s := by
  unfold string
  rw [strlen_eq h hf, Option.map_some, h.read]

/-- The strings of an `argv`. -/
theorem strings_eq (h : List.Forall₂ (Str m) ps ss) (hf : ∀ s ∈ ss, s.length < fuel) :
    strings fuel m (ps.map some ++ none :: tail) = some ss := by
  induction h with
  | nil => rfl
  | cons h _ ih =>
    rw [List.map_cons, List.cons_append, strings, string_eq h (hf _ List.mem_cons_self), Option.bind_eq_bind,
      Option.bind_some, ih fun s hs => hf s (List.mem_cons_of_mem _ hs)]
    rfl

/-- The initial arguments in memory, outside of the buffer. -/
structure Given (m : Store) (buf : Nat) (ps : List Nat) (ss : List (List UInt8)) : Prop where
  str : List.Forall₂ (Str m) ps ss
  apart : List.Forall₂ (fun p s => p + s.length < buf ∨ buf + bufSize ≤ p) ps ss

/-- They do not see what happens in the buffer. -/
theorem Given.congr {m' : Store} (h : Given m buf ps ss) (hm : ∀ x, x < buf ∨ buf + bufSize ≤ x → m' x = m x) :
    Given m' buf ps ss where
  str := by
    obtain ⟨h, hd⟩ := h
    induction h with
    | nil => exact .nil
    | cons h _ ih =>
      cases hd with
      | cons hd hds => exact .cons (h.congr fun i hi => hm _ (by omega)) (ih hds)
  apart := h.apart

/-! ## The words of a line -/

theorem take_set {x : Option Nat} (h : argc < argv.length) :
    (argv.set argc x).take (argc + 1) = argv.take argc ++ [x] := by
  have hl : (argv.take argc).length = argc := List.length_take_of_le (le_of_lt h)
  rw [List.set_eq_take_append_cons_drop, if_pos h, List.take_append, hl, List.take_of_length_le (by omega),
    Nat.add_sub_cancel_left]
  rfl

/-- `parse_arg` has put the strings `ss` behind `argc` arguments, and has changed bytes from `b` on before `e` only. -/
structure Parsed (argc b e : Nat) (argv : List (Option Nat)) (σ : St) (ss : List (List UInt8))
    (r : List (Option Nat) × St) : Prop where
  put : ∃ ps tail, r.1 = argv.take argc ++ (ps.map some ++ none :: tail) ∧ List.Forall₂ (Str r.2.mem) ps ss
  len : r.1.length = argv.length
  lasts : r.2.lasts = none
  frame : ∀ x, x < b ∨ e ≤ x → r.2.mem x = σ.mem x

/-- The last argument: NULL is put behind it. -/
theorem Parsed.done {args : Nat} {σ' : St} (h : Str σ.mem args s) (hlt : argc + 1 < argv.length) (hl : σ'.lasts = none)
    (hm : σ'.mem = σ.mem) : Parsed argc b c argv σ [s] ((argv.set argc (some args)).set (argc + 1) none, σ') where
  put := by
    refine ⟨[args], (argv.set argc (some args)).drop (argc + 1 + 1), ?_, .cons (hm ▸ h) .nil⟩
    rw [List.set_eq_take_append_cons_drop, if_pos (by rw [List.length_set]; exact hlt), take_set (by omega),
      List.append_assoc]
    rfl
  len := by rw [List.length_set, List.length_set]
  lasts := hl
  frame x _ := by rw [hm]

/-- One more argument before those of the rest. -/
theorem Parsed.cons {args b' : Nat} {σ₁ : St} {r : List (Option Nat) × St} (h : Str σ.mem args s)
    (hlt : argc < argv.length) (hs : args + s.length < b) (hb : b ≤ b') (hm : ∀ x, x < b ∨ c ≤ x → σ₁.mem x = σ.mem x)
    (hr : Parsed (argc + 1) b' c (argv.set argc (some args)) σ₁ ss r) : Parsed argc b c argv σ (s :: ss) r where
  put := by
    obtain ⟨ps, tail, he, hps⟩ := hr.put
    refine ⟨args :: ps, tail, ?_, .cons (h.congr fun i hi => ?_) hps⟩
    · rw [he, take_set hlt, List.append_assoc]
      rfl
    · rw [hr.frame _ (by omega), hm _ (by omega)]
  len := by rw [hr.len, List.length_set]
  lasts := hr.lasts
  frame x hx := by rw [hr.frame x (by omega), hm x hx]

/-- The `do` loop, at an argument `s` with the words `ws` behind it. -/
theorem parseLoop_eq :
    ∀ {ws : List (List UInt8)} {calls args argc b e : Nat} {argv : List (Option Nat)} {σ : St} {s t : List UInt8},
    words t = ws → σ.At t b e → Str σ.mem args s → args + s.length < b → ws.length < calls → t.length < fuel →
    argc + 1 + ws.length ≤ maxArg → argv.length = maxArg + 1 →
    ∃ r, parseLoop fuel calls args argc argv σ = some (.ok r) ∧ Parsed argc b e argv σ (s :: ws) r
  | ws, 0, _, _, _, _, _, _, _, _, _, _, _, _, hc, _, _, _ => absurd hc (Nat.not_lt_zero _)
  | ws, calls + 1, args, argc, b, e, argv, σ, s, t, hw, hat, hs, hsb, hc, hf, hmax, hlen => by
    have hmax' : ¬argc + 1 > maxArg := by omega
    have hend : ∀ σ', strtok fuel none blanks σ = some (none, σ') → ws = [] → σ'.lasts = none → σ'.mem = σ.mem →
        ∃ r, parseLoop fuel (calls + 1) args argc argv σ = some (.ok r) ∧ Parsed argc b e argv σ (s :: ws) r := by
      rintro σ' ht rfl hl hm
      refine ⟨_, ?_, Parsed.done hs (by omega) hl hm⟩
      unfold parseLoop
      simp only [if_neg hmax', ht, Option.bind_eq_bind, Option.bind_some]
      rfl
    rcases hat with ⟨hl, rfl⟩ | ⟨a, hl, hba, hae, h⟩
    · exact hend σ (strtok_null hl) hw.symm hl rfl
    · have hq : ((none : Option Nat) <|> σ.lasts) = some a := by rw [hl]; rfl
      rcases cut_or (fun c => decide (c ∈ blanks)) t with hsep | ⟨pre, w, post, hcut⟩
      · exact hend _ (strtok_sep hq h (by decide) hf fun c hc => by simpa using hsep c hc)
          (hw.symm.trans (runs_sep hsep)) rfl rfl
      · have hrec : ws = w :: words post.tail := hw.symm.trans hcut.runs
        subst hrec
        have hsize := congrArg List.length hcut.eq
        rw [List.length_append, List.length_append] at hsize
        rw [List.length_cons] at hc hmax
        have hpos := List.length_pos_iff.2 hcut.ne
        have hat' := cut_at h hcut
        rw [hae] at hat'
        obtain ⟨r, hr, hp⟩ : ∃ r, parseLoop fuel calls (a + pre.length) (argc + 1) (argv.set argc (some args))
              (σ.cut (a + pre.length + w.length) post) = some (.ok r) ∧
            Parsed (argc + 1) (a + pre.length + w.length + 1) e (argv.set argc (some args))
              (σ.cut (a + pre.length + w.length) post) (w :: words post.tail) r :=
          parseLoop_eq rfl hat' (cut_token h hcut) (by omega) (by omega) (by rw [List.length_tail]; omega) (by omega)
            (by rw [List.length_set, hlen])
        refine ⟨r, ?_, Parsed.cons hs (by omega) hsb (by omega) (fun x hx => cut_mem ?_) hp⟩
        · unfold parseLoop
          simp only [if_neg hmax', strtok_cut hq h hf hcut, Option.bind_eq_bind, Option.bind_some, hr]
        · cases post with
          | nil => exact Or.inr (Or.inr rfl)
          | cons c post =>
            rw [List.length_cons] at hsize
            omega

theorem Parsed.mono {b' c' : Nat} {σ₁ : St} {r : List (Option Nat) × St} (h : Parsed argc b c argv σ₁ ss r)
    (hb : b' ≤ b) (hc : c ≤ c') (hm : ∀ x, x < b' ∨ c' ≤ x → σ₁.mem x = σ.mem x) : Parsed argc b' c' argv σ ss r where
  put := h.put
  len := h.len
  lasts := h.lasts
  frame x hx := by rw [h.frame x (by omega), hm x hx]

theorem made_sep (h : ∀ c ∈ line, decide (c ∈ blanks) = true) : made line = [line] := by
  unfold made words
  rw [runs_sep h]

theorem made_cut {pre w post : List UInt8} (h : Cut (fun c => decide (c ∈ blanks)) line pre w post) :
    made line = (pre ++ w) :: words post.tail := by
  have hpre : line.takeWhile (fun c => decide (c ∈ blanks)) = pre := by
    obtain ⟨c, w, rfl⟩ := List.exists_cons_of_ne_nil h.ne
    rw [h.eq, List.takeWhile_append_of_pos h.pre, List.cons_append, List.takeWhile_cons_of_neg (by
      rw [h.run c List.mem_cons_self]
      exact Bool.false_ne_true), List.append_nil]
  unfold made words
  rw [h.runs, hpre]

theorem made_length {v : List UInt8} (h : v ∈ made line) : v.length ≤ line.length := by
  rcases cut_or (fun c => decide (c ∈ blanks)) line with hs | ⟨pre, w, post, hc⟩
  · rw [made_sep hs, List.mem_singleton] at h
    rw [h]
  · have hlen := congrArg List.length hc.eq
    rw [List.length_append, List.length_append] at hlen
    rw [made_cut hc] at h
    rcases List.mem_cons.1 h with rfl | h
    · rw [List.length_append]
      omega
    · have := length_le_of_mem_runs h
      rw [List.length_tail] at this
      omega

theorem parseArg_eq (h : Str σ.mem thisLine line) (hne : line ≠ []) (hf : line.length < fuel) (hf' : maxArg < fuel)
    (hmax : argc + (made line).length ≤ maxArg) (hlen : argv.length = maxArg + 1) :
    ∃ r, parseArg fuel thisLine argc argv σ = some (.ok r) ∧
      Parsed argc thisLine (thisLine + line.length) argv σ (made line) r := by
  have hq : (some thisLine <|> σ.lasts) = some thisLine := rfl
  unfold parseArg
  rw [if_neg (h.head_ne hne)]
  rcases cut_or (fun c => decide (c ∈ blanks)) line with hs | ⟨pre, w, post, hc⟩
  · rw [made_sep hs] at hmax ⊢
    rw [strtok_sep hq h (by decide) hf fun c hc => by simpa using hs c hc]
    obtain ⟨r, hr, hp⟩ : ∃ r, parseLoop fuel fuel thisLine argc argv { σ with lasts := none } = some (.ok r) ∧
        Parsed argc (thisLine + line.length + 1) (thisLine + line.length) argv { σ with lasts := none } [line] r :=
      parseLoop_eq (t := []) rfl (Or.inl ⟨rfl, rfl⟩) h (by omega) (Nat.zero_lt_of_lt hf)
        (Nat.zero_lt_of_lt hf) hmax hlen
    exact ⟨r, hr, hp.mono (by omega) (le_refl _) fun _ _ => rfl⟩
  · have hsize := congrArg List.length hc.eq
    rw [List.length_append, List.length_append] at hsize
    rw [made_cut hc] at hmax ⊢
    rw [List.length_cons] at hmax
    rw [strtok_cut hq h hf hc]
    have hpos := List.length_pos_iff.2 hc.ne
    obtain ⟨r, hr, hp⟩ : ∃ r, parseLoop fuel fuel thisLine argc argv (σ.cut (thisLine + pre.length + w.length) post) =
        some (.ok r) ∧ Parsed argc (thisLine + pre.length + w.length + 1) (thisLine + line.length) argv
          (σ.cut (thisLine + pre.length + w.length) post) ((pre ++ w) :: words post.tail) r :=
      parseLoop_eq rfl (cut_at h hc) (cut_start h hc) (by rw [List.length_append]; omega) (by omega)
        (by rw [List.length_tail]; omega) (by omega) hlen
    refine ⟨r, hr, hp.mono (by omega) (le_refl _) fun x hx => cut_mem ?_⟩
    cases post with
    | nil => exact Or.inr (Or.inr rfl)
    | cons c post =>
      rw [List.length_cons] at hsize
      omega

/-- With as many arguments as there may be, a line is one too many. -/
theorem parseArg_full (h : Str σ.mem thisLine line) (hne : line ≠ []) (hf : line.length < fuel) (hmax : maxArg ≤ argc) :
    parseArg fuel thisLine argc argv σ = some (.error .argv) := by
  obtain ⟨r, hr⟩ : ∃ r, strtok fuel (some thisLine) blanks σ = some r := by
    rcases cut_or (fun c => decide (c ∈ blanks)) line with hs | ⟨pre, w, post, hc⟩
    · exact ⟨_, strtok_sep rfl h (by decide) hf fun c hc => by simpa using hs c hc⟩
    · exact ⟨_, strtok_cut rfl h hf hc⟩
  obtain ⟨n, rfl⟩ := Nat.exists_eq_succ_of_ne_zero (Nat.ne_of_gt (Nat.zero_lt_of_lt hf))
  unfold parseArg
  rw [if_neg (h.head_ne hne), hr, Option.bind_eq_bind, Option.bind_some]
  unfold parseLoop
  exact if_pos (show argc + 1 > maxArg by omega)

/-! ## The lines of the input -/

/-- Behind a line `strtok`'s cursor is where the next line starts. -/
theorem nextLine_eq {pre w post : List UInt8} {p : UInt8 → Bool} (h : Str σ.mem a s) (hc : Cut p s pre w post)
    (hf : s.length < fuel) : nextLine fuel (σ.cut (a + pre.length + w.length) post).mem (a + pre.length)
    (a + s.length) =
      some (σ.cut (a + pre.length + w.length) post).lasts := by
  have hsize := congrArg List.length hc.eq
  rw [List.length_append, List.length_append] at hsize
  unfold nextLine
  rw [strlen_eq (cut_token h hc) (by omega), Option.map_some]
  cases post with
  | nil =>
    rw [List.length_nil] at hsize
    rw [if_pos (by omega)]
    rfl
  | cons c post =>
    rw [List.length_cons] at hsize
    rw [if_neg (by omega)]
    rfl

variable {f : List UInt8} {init : List (List UInt8)}

/-- The command of a line. -/
theorem execAnother_eq {r : List (Option Nat) × St} (hfork : fork n ≠ -1) (hp : Parsed argc b c argv σ ss r)
    (hg : Given r.2.mem buf (file :: ps) (f :: init)) (htake : argv.take argc = (file :: ps).map some)
    (hf : ∀ s ∈ f :: (init ++ ss), s.length < fuel) :
    execAnother fork n fuel file r.1 r.2.mem = some (.ok ⟨f, f :: (init ++ ss)⟩) := by
  obtain ⟨ps', tail, he, hps⟩ := hp.put
  have hall := List.rel_append hg.str hps
  have hstr : Str r.2.mem file f := by
    cases hg.str with
    | cons h _ => exact h
  unfold execAnother
  rw [if_neg hfork, string_eq hstr (hf f List.mem_cons_self), he, htake, ← List.append_assoc, ← List.map_append,
    strings_eq hall hf]
  rfl

theorem lineLoop_eq (hfork : ∀ n, fork n ≠ -1) (hfuel : bufSize ≤ fuel) (hshort : ∀ s ∈ f :: init, s.length < fuel)
    (hlast : last < buf + bufSize) : ∀ {ls : List (List UInt8)} {turns n thisLine : Nat} {next : Option Nat}
      {argv : List (Option Nat)} {σ : St} {line rest : List UInt8}, runs (fun c => decide (c ∈ newline)) rest = ls →
      Str σ.mem thisLine line → line ≠ [] → (⟨σ.mem, next⟩ : St).At rest (thisLine + line.length + 1) last →
      buf ≤ thisLine → thisLine + line.length ≤ last → Given σ.mem buf (file :: ps) (f :: init) →
      argv.take argc = (file :: ps).map some → argv.length = maxArg + 1 →
      (∀ l ∈ line :: ls, argc + (made l).length ≤ maxArg) → ls.length < turns →
      lineLoop fork fuel last file argc turns n thisLine next argv σ =
        some ((line :: ls).map fun l => ⟨f, f :: (init ++ made l)⟩, none)
  | ls, 0, _, _, _, _, _, _, _, _, _, _, _, _, _, _, _, _, _, ht => absurd ht (Nat.not_lt_zero _)
  | ls, turns + 1, n, thisLine, next, argv, σ, line, rest, hls, hl, hne, hat, hlo, hhi, hg, htake, hlen, hmax, ht => by
    have hf : line.length < fuel := by omega
    obtain ⟨r, hr, hp⟩ := parseArg_eq hl hne hf (Nat.lt_of_lt_of_le (by decide) hfuel)
      (hmax line List.mem_cons_self) hlen
    have hg' : Given r.2.mem buf (file :: ps) (f :: init) := hg.congr fun x hx => hp.frame x (by omega)
    have hx := execAnother_eq (hfork n) hp hg' htake fun s hs => by
      rw [← List.cons_append] at hs
      rcases List.mem_append.1 hs with hs | hs
      · exact hshort s hs
      · exact (made_length hs).trans_lt hf
    obtain ⟨argv', σ'⟩ := r
    -- no more lines
    have hend : ∀ σ'', strtok fuel next newline σ' = some (none, σ'') → ls = [] →
        lineLoop fork fuel last file argc (turns + 1) n thisLine next argv σ =
          some ((line :: ls).map fun l => ⟨f, f :: (init ++ made l)⟩, none) := by
      rintro σ'' hs rfl
      unfold lineLoop
      simp only [hr, hx, hs, Option.bind_eq_bind, Option.bind_some]
      rfl
    rcases hat with ⟨hn, rfl⟩ | ⟨a, hn, hba, hae, h⟩
    · obtain rfl : next = none := hn
      exact hend _ (strtok_null hp.lasts) hls.symm
    · obtain rfl : next = some a := hn
      have h : Str σ'.mem a rest := h.congr fun i hi => hp.frame _ (by omega)
      rcases cut_or (fun c => decide (c ∈ newline)) rest with hsep | ⟨pre, w, post, hcut⟩
      · exact hend _ (strtok_sep rfl h (by decide) (by omega) fun c hc => by simpa using hsep c hc)
          (hls.symm.trans (runs_sep hsep))
      · have hrec := hls.symm.trans hcut.runs
        subst hrec
        have hsize := congrArg List.length hcut.eq
        rw [List.length_append, List.length_append] at hsize
        have hs : strtok fuel (some a) newline σ' =
            some (some (a + pre.length), σ'.cut (a + pre.length + w.length) post) :=
          strtok_cut rfl h (by omega) hcut
        have hnext : nextLine fuel (σ'.cut (a + pre.length + w.length) post).mem (a + pre.length) last =
            some (σ'.cut (a + pre.length + w.length) post).lasts := hae ▸ nextLine_eq h hcut (by omega)
        have htake' : argv'.take argc = (file :: ps).map some := by
          obtain ⟨ps', tail, he, -⟩ := hp.put
          have hargc := hmax line List.mem_cons_self
          rw [show argv' = _ from he, List.take_left' (List.length_take_of_le (by omega)), htake]
        have hframe : ∀ x, x < buf ∨ buf + bufSize ≤ x → (σ'.cut (a + pre.length + w.length) post).mem x = σ'.mem x :=
          fun x hx => cut_mem (by omega)
        have hrun : lineLoop fork fuel last file argc turns (n + 1) (a + pre.length)
            (σ'.cut (a + pre.length + w.length) post).lasts argv' (σ'.cut (a + pre.length + w.length) post) =
              some ((w :: runs (fun c => decide (c ∈ newline)) post.tail).map fun l =>
                ⟨f, f :: (init ++ made l)⟩, none) :=
          lineLoop_eq hfork hfuel hshort hlast rfl (cut_token h hcut) hcut.ne (hae ▸ cut_at h hcut)
            (by omega) (by omega)
            (hg'.congr hframe) htake' (hp.len.trans hlen) (fun l hl => hmax l (List.mem_cons_of_mem _ hl))
            (Nat.lt_of_succ_lt_succ ht)
        unfold lineLoop
        simp only [hr, hx, hs, hnext, hrun, Option.bind_eq_bind, Option.bind_some]
        rfl

/-- The whole input. -/
theorem execByArgs_eq (hfork : ∀ n, fork n ≠ -1) (hfuel : bufSize ≤ fuel) (hshort : ∀ s ∈ f :: init, s.length < fuel)
    (h : Str σ.mem buf input) (hin : input.length < bufSize) (hg : Given σ.mem buf (file :: ps) (f :: init))
    (htake : argv.take argc = (file :: ps).map some) (hlen : argv.length = maxArg + 1)
    (hmax : ∀ l ∈ runs (fun c => decide (c ∈ newline)) input, argc + (made l).length ≤ maxArg) :
    execByArgs fork fuel buf file argc argv σ =
      some ((runs (fun c => decide (c ∈ newline)) input).map fun l => ⟨f, f :: (init ++ made l)⟩, none) := by
  have hf : input.length < fuel := by omega
  unfold execByArgs
  rw [strlen_eq h hf]
  rcases cut_or (fun c => decide (c ∈ newline)) input with hs | ⟨pre, w, post, hc⟩
  · have hend : strtok fuel (some buf) newline σ = some (none, { σ with lasts := none }) :=
      strtok_sep rfl h (by decide) hf fun c hc => by simpa using hs c hc
    simp only [hend, Option.bind_eq_bind, Option.bind_some, runs_sep hs]
    rfl
  · have hsize := congrArg List.length hc.eq
    rw [List.length_append, List.length_append] at hsize
    rw [hc.runs] at hmax ⊢
    have hs : strtok fuel (some buf) newline σ =
        some (some (buf + pre.length), σ.cut (buf + pre.length + w.length) post) :=
      strtok_cut rfl h hf hc
    have hnext : nextLine fuel (σ.cut (buf + pre.length + w.length) post).mem (buf + pre.length) (buf + input.length) =
        some (σ.cut (buf + pre.length + w.length) post).lasts := nextLine_eq h hc hf
    simp only [hs, hnext, Option.bind_eq_bind, Option.bind_some]
    have hcount := length_runs_le (fun c => decide (c ∈ newline)) post.tail
    rw [List.length_tail] at hcount
    have hpos := List.length_pos_iff.2 hc.ne
    have hframe : ∀ x, x < buf ∨ buf + bufSize ≤ x → (σ.cut (buf + pre.length + w.length) post).mem x = σ.mem x :=
      fun x hx => cut_mem (by omega)
    exact lineLoop_eq hfork hfuel hshort (by omega) rfl (cut_token h hc) hc.ne (cut_at h hc) (by omega) (by omega)
      (hg.congr hframe) htake hlen hmax (by omega)

/-- With as many arguments as there may be, no command runs. -/
theorem execByArgs_full (h : Str σ.mem buf input) (hf : input.length < fuel) (hmax : maxArg ≤ argc) :
    execByArgs fork fuel buf file argc argv σ =
      some ([], if runs (fun c => decide (c ∈ newline)) input = [] then none else some .argv) := by
  unfold execByArgs
  rw [strlen_eq h hf]
  rcases cut_or (fun c => decide (c ∈ newline)) input with hs | ⟨pre, w, post, hc⟩
  · have hend : strtok fuel (some buf) newline σ = some (none, { σ with lasts := none }) :=
      strtok_sep rfl h (by decide) hf fun c hc => by simpa using hs c hc
    simp only [hend, Option.bind_eq_bind, Option.bind_some, runs_sep hs]
    rfl
  · have hsize := congrArg List.length hc.eq
    rw [List.length_append, List.length_append] at hsize
    have hs : strtok fuel (some buf) newline σ =
        some (some (buf + pre.length), σ.cut (buf + pre.length + w.length) post) :=
      strtok_cut rfl h hf hc
    have hnext : nextLine fuel (σ.cut (buf + pre.length + w.length) post).mem (buf + pre.length) (buf + input.length) =
        some (σ.cut (buf + pre.length + w.length) post).lasts := nextLine_eq h hc hf
    have hline : parseArg fuel _ argc argv _ = _ :=
      parseArg_full (cut_token h hc) hc.ne (show w.length < fuel by omega) hmax
    obtain ⟨k, rfl⟩ := Nat.exists_eq_succ_of_ne_zero (Nat.ne_of_gt (Nat.zero_lt_of_lt hf))
    simp only [hs, hnext, Option.bind_eq_bind, Option.bind_some]
    unfold lineLoop
    rw [hline, hc.runs]
    rfl

/-! ## The arguments of a line -/

/-- A line makes its words, unless blanks stand before the first of them. -/
theorem made_eq (hne : line ≠ []) : made line = words line ↔ ∀ c ∈ line.head?, c ∉ blanks := by
  rcases cut_or (fun c => decide (c ∈ blanks)) line with hs | ⟨pre, w, post, hc⟩
  · obtain ⟨c, l, rfl⟩ := List.exists_cons_of_ne_nil hne
    rw [made_sep hs, show words (c :: l) = [] from runs_sep hs]
    refine ⟨fun h => (by cases h), fun h => ?_⟩
    exact absurd (of_decide_eq_true (hs c List.mem_cons_self)) (h c rfl)
  · rw [made_cut hc, show words line = w :: words post.tail from hc.runs]
    obtain ⟨d, w, rfl⟩ := List.exists_cons_of_ne_nil hc.ne
    have heq := hc.eq
    cases pre with
    | nil =>
      subst heq
      refine ⟨fun _ c hm => ?_, fun _ => rfl⟩
      obtain rfl : d = c := Option.some.inj hm
      exact of_decide_eq_false (hc.run d List.mem_cons_self)
    | cons c pre =>
      subst heq
      constructor
      · intro h
        have hlen := congrArg List.length (List.cons.inj h).1
        rw [List.length_append, List.length_cons] at hlen
        omega
      · exact fun h => absurd (of_decide_eq_true (hc.pre c List.mem_cons_self)) (h c rfl)

theorem made_card : (made line).length ≤ max 1 (words line).length := by
  rcases cut_or (fun c => decide (c ∈ blanks)) line with hs | ⟨pre, w, post, hc⟩
  · rw [made_sep hs]
    exact le_max_left _ _
  · rw [made_cut hc, show words line = _ from hc.runs]
    exact le_max_right _ _

/-- A line with a word. -/
theorem any_words : (line.any fun c => decide (c ∉ blanks)) = true ↔ words line ≠ [] := by
  unfold words
  rw [Ne, runs_eq_nil, List.any_eq_true]
  simp

/-- The commands that run are those that are to run exactly when no line starts with a blank. -/
theorem commands_eq (f : List UInt8) (init : List (List UInt8)) :
    (runs (fun c => decide (c ∈ newline)) input).map (fun l => Exec.mk f (f :: (init ++ made l))) =
    commands f init input ↔ ∀ l ∈ lines input, ∀ c ∈ l.head?, c ∉ blanks := by
  set ls := runs (fun c => decide (c ∈ newline)) input with hls
  have hmem : ∀ l, l ∈ ls ↔ l ∈ lines input ∧ l ≠ [] := fun l => by
    rw [hls, runs, List.mem_filter]
    simp [lines]
  have hcmd : commands f init input =
      (ls.filter fun l => l.any fun c => decide (c ∉ blanks)).map fun l => Exec.mk f (f :: (init ++ words l)) := by
    unfold commands
    rw [hls, runs, List.filter_filter]
    congr 1
    refine List.filter_congr fun l _ => ?_
    cases l with
    | nil => rfl
    | cons c l => simp
  rw [hcmd]
  constructor
  · intro h l hl c hc
    have hlen := congrArg List.length h
    rw [List.length_map, List.length_map] at hlen
    have hall := List.length_filter_eq_length_iff.1 hlen.symm
    rw [List.filter_eq_self.2 hall, List.map_inj_left] at h
    have hne : l ≠ [] := by
      rintro rfl
      cases hc
    have hm := h l ((hmem l).2 ⟨hl, hne⟩)
    simp only [Exec.mk.injEq, true_and, List.cons.injEq, List.append_cancel_left_eq] at hm
    exact (made_eq hne).1 hm c hc
  · intro h
    have hall : ∀ l ∈ ls, made l = words l := fun l hl => (made_eq ((hmem l).1 hl).2).2 (h l ((hmem l).1 hl).1)
    rw [List.filter_eq_self.2 fun l hl => any_words.2 fun hw => ?_]
    · exact List.map_congr_left fun l hl => by rw [hall l hl]
    · have hm := hall l hl
      rw [hw] at hm
      unfold made at hm
      rw [hw] at hm
      cases hm

/-! ## The program -/

theorem main_eq {prog : Nat} (hin : input.length < bufSize) : main fork malloc fuel buf (prog :: file :: ps) input m =
    execByArgs fork fuel buf file (ps.length + 1)
      ((file :: ps).map some ++ (List.replicate (maxArg + 1) none).drop (ps.length + 1)) ⟨m.write buf input, none⟩ := by
  unfold main
  simp only [List.take_of_length_le hin.le, if_pos hin]

/-- The input in `static_buf`. -/
theorem str_input (hz : ∀ i < bufSize, m (buf + i) = 0) (hin : input.length < bufSize) (h0 : 0 ∉ input) :
    Str (m.write buf input) buf input where
  read := Store.read_write_self
  nul := by rw [Store.write_out (Or.inr (le_refl _)), hz _ hin]
  mem := h0

/-- With `static_buf` at zero and the initial arguments behind the program's name, when every fork succeeds and
no line makes more than 31 arguments: xargs runs one command for each line with a word in it, in order, with the
initial arguments and the words of the line, exactly when no line starts with a space or a tab, or there are 31
initial arguments, with which no line can have a word. -/
theorem xargs_runs {prog : Nat} (hfork : ∀ n, fork n ≠ -1) (hz : ∀ i < bufSize, m (buf + i) = 0)
    (hg : Given m buf (file :: ps) (f :: init)) (hin : input.length < bufSize) (h0 : 0 ∉ input)
    (hmax : ∀ l ∈ lines input, (f :: init).length + (words l).length ≤ maxArg) :
    ∃ k cmds stop, (∀ fuel ≥ k, main fork malloc fuel buf (prog :: file :: ps) input m = some (cmds, stop)) ∧
      (cmds = commands f init input ↔
        (∀ l ∈ lines input, ∀ c ∈ l.head?, c ∉ blanks) ∨ (f :: init).length = maxArg) := by
  have hcard : ps.length = init.length := by simpa using hg.str.length_eq
  have hargs : (f :: init).length ≤ maxArg := by
    obtain ⟨l, hl⟩ := List.exists_mem_of_ne_nil _ (List.splitOnP_ne_nil (fun c => decide (c ∈ newline)) input)
    exact (Nat.le_add_right _ _).trans (hmax l hl)
  rw [List.length_cons] at hargs hmax ⊢
  obtain ⟨k, hk⟩ : ∃ k, ∀ s ∈ f :: init, s.length < k :=
    ⟨((f :: init).map List.length).sum + 1, fun s hs => Nat.lt_succ_of_le (List.le_sum_of_mem (List.mem_map_of_mem hs))⟩
  have hstr := str_input hz hin h0
  have hg' : Given (m.write buf input) buf (file :: ps) (f :: init) := hg.congr fun x hx => Store.write_out (by omega)
  rcases Nat.lt_or_eq_of_le hargs with hlt | hfull
  · refine ⟨max k bufSize, _, none, fun fuel hfuel => ?_, (commands_eq f init).trans
      ⟨Or.inl, fun h => h.resolve_right (by omega)⟩⟩
    rw [main_eq hin]
    refine execByArgs_eq hfork ((le_max_right _ _).trans hfuel)
      (fun s hs => (hk s hs).trans_le ((le_max_left _ _).trans hfuel)) hstr hin hg' ?_ ?_ fun l hl => ?_
    · exact List.take_left' (by simp)
    · rw [List.length_append, List.length_map, List.length_drop, List.length_replicate, List.length_cons]
      omega
    · have hl : l ∈ lines input := (List.mem_filter.1 hl).1
      have h1 := hmax l hl
      have h2 : (made l).length ≤ max 1 (words l).length := made_card
      omega
  · refine ⟨bufSize, [], if runs (fun c => decide (c ∈ newline)) input = [] then none else some .argv,
      fun fuel hfuel => ?_, fun _ => Or.inr hfull, fun _ => ?_⟩
    · rw [main_eq hin]
      exact execByArgs_full hstr (by omega) (by omega)
    · unfold commands
      rw [List.filter_eq_nil_iff.2 fun l hl hany => any_words.1 hany ?_]
      · rfl
      · have := hmax l hl
        exact List.length_eq_zero_iff.1 (by omega)

/-- `"a b\n\nc"` for the command `x`. -/
theorem xargs_runs_demo : ∃ k cmds stop, (∀ fuel ≥ k, main (fun _ => 1) (fun _ => none) fuel 1000 [1, 10]
      [97, 32, 98, 10, 10, 99] (Store.write (fun _ => 0) 10 ([120] ++ [0])) = some (cmds, stop)) ∧
    cmds = [⟨[120], [[120], [97], [98]]⟩, ⟨[120], [[120], [99]]⟩] := by
  have hx : Str (Store.write (fun _ => 0) 10 ([120] ++ [0])) 10 [120] := Str.of_write (by decide)
  have hz : ∀ i < bufSize, Store.write (fun _ => 0) 10 ([120] ++ [0]) (1000 + i) = 0 := fun i _ =>
    Store.write_out (Or.inr (Nat.le_trans (by decide) (Nat.le_add_right 1000 i)))
  have hg : Given (Store.write (fun _ => 0) 10 ([120] ++ [0])) 1000 [10] [[120]] :=
    ⟨.cons hx .nil, .cons (Or.inl (by decide)) .nil⟩
  obtain ⟨k, cmds, stop, h1, h2⟩ : ∃ k cmds stop, (∀ fuel ≥ k, main (fun _ => 1) (fun _ => none) fuel 1000 [1, 10]
        [97, 32, 98, 10, 10, 99] (Store.write (fun _ => 0) 10 ([120] ++ [0])) = some (cmds, stop)) ∧
      (cmds = commands [120] [] [97, 32, 98, 10, 10, 99] ↔ _) :=
    xargs_runs (fun _ => by decide) hz hg (by decide) (by decide) (by decide)
  have hlead : ∀ l ∈ lines [97, 32, 98, 10, 10, 99], ∀ c ∈ l.head?, c ∉ blanks := by
    intro l hl c hc
    have hl' : l ∈ [[97, 32, 98], [], [99]] := hl
    simp only [List.mem_cons, List.not_mem_nil, or_false] at hl'
    rcases hl' with rfl | rfl | rfl <;> cases hc <;> decide
  exact ⟨k, cmds, stop, h1, (h2.2 (Or.inl hlead)).trans (by decide)⟩

/-- `" a"` gives the command an argument with a space, and a line of blanks gives it one more run. -/
theorem xargs_blank : (main (fun _ => 1) (fun _ => none) 20 1000 [1, 10] [32, 97, 10, 32]
      (Store.write (fun _ => 0) 10 ([120] ++ [0])) =
        some ([⟨[120], [[120], [32, 97]]⟩, ⟨[120], [[120], [32]]⟩], none)) ∧
    commands [120] [] [32, 97, 10, 32] = [⟨[120], [[120], [97]]⟩] ∧
    [⟨[120], [[120], [32, 97]]⟩, ⟨[120], [[120], [32]]⟩] ≠ commands [120] [] [32, 97, 10, 32] := by
  decide

end TinyOS.Xargs
