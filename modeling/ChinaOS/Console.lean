import Mathlib.Tactic

/-!
The command line of `library/console/console.c`.

`aCmdBuffer` is the first fifty bytes of a memory, of which the bytes behind it are not the
console's. `command` edits a line in it and hands it to `service`, which cuts the line at the
first space and looks the name up.

* `Draft`: the text of a line while it is typed, and what the line has left in the buffer; the
  rest of the buffer is as it was (`edit_overlay`).
* `command_overlay`: what a completed line calls.
* `independent_iff`: the lines whose call does not depend on what was in the buffer before.
-/

namespace ChinaOS

namespace Console

/-- A `char`. -/
abbrev Byte := BitVec 8

/-- The bytes from `aCmdBuffer` on. -/
abbrev Memory := ℕ → Byte

/-- `CMD_LINE_SIZE`. -/
def cmdLineSize : ℕ := 50

/-- An entry of the table of services: a name, and the number of a function. -/
structure Service where
  pName : List Byte
  pFunction : ℕ
  deriving DecidableEq

/-! ### `service` -/

/-- The loop of `service` that counts the characters of the name and cuts the line behind it, for
a line that ends within so many bytes. -/
def cmdSize (mem : Memory) : ℕ → ℕ → Option (ℕ × Memory)
  | 0, _ => none
  | fuel + 1, CmdSize =>
      if mem CmdSize = 0 then some (CmdSize, mem)
      else if mem CmdSize = 0x20 then some (CmdSize, Function.update mem CmdSize 0)
      else cmdSize mem fuel (CmdSize + 1)

/-- The entry for the name of `CmdSize` characters. -/
def lookup (services : List Service) (mem : Memory) (CmdSize : ℕ) : Option Service :=
  services.find? fun pItem =>
    decide (CmdSize = pItem.pName.length ∧ (List.range CmdSize).map mem = pItem.pName)

/-- `service`: the memory after it, and the entry that was called with the pointer to its
option. -/
def service (services : List Service) (mem : Memory) : Option (Memory × Option (Service × ℕ)) :=
  (cmdSize mem cmdLineSize 0).map fun r =>
    (r.2, (lookup services r.2 r.1).map fun pItem => (pItem, r.1 + 1))

/-! ### `command` -/

/-- How the loop of `command` goes on after a character: with the condition at its end, behind
the loop, or at the label `end`. -/
inductive Flow where
  | again
  | leave
  | skip

/-- The body of the loop of `command`. -/
def scan (mem : Memory) (CharCounter : ℕ) (Char : Byte) : Memory × ℕ × Flow :=
  if Char = 0x7F ∨ Char = 0x08 then
    (mem, if CharCounter ≠ 0 then CharCounter - 1 else CharCounter, .again)
  else if Char = 0x20 ∧ (CharCounter = 0 ∨ mem (CharCounter - 1) = 0x20) then
    (mem, CharCounter, .again)
  else if Char = 0x0D then (mem, CharCounter, if CharCounter ≠ 0 then .leave else .skip)
  else (Function.update mem CharCounter Char, CharCounter + 1, .again)

/-- The loop of `command` on the characters that `scanc` returns: the memory and the counter
behind it, whether the line is handed on, and the characters that are left. -/
def edit : List Byte → Memory → ℕ → Option (Memory × ℕ × Bool × List Byte)
  | [], _, _ => none
  | Char :: keys, mem, CharCounter =>
      match scan mem CharCounter Char with
      | (mem, CharCounter, .again) =>
          if CharCounter < cmdLineSize - 1 then edit keys mem CharCounter
          else some (mem, CharCounter, true, keys)
      | (mem, CharCounter, .leave) => some (mem, CharCounter, true, keys)
      | (mem, CharCounter, .skip) => some (mem, CharCounter, false, keys)

/-- One line of `command`: the memory after it, the call that was made, and the characters that
are left; `none` while the line is not complete. -/
def command (services : List Service) (mem : Memory) (keys : List Byte) :
    Option (Memory × Option (Service × ℕ) × List Byte) :=
  (edit keys (Function.update mem (cmdLineSize - 1) 0) 0).bind fun r =>
    if r.2.2.1 then
      (service services (Function.update r.1 r.2.1 0)).map fun s => (s.1, s.2, r.2.2.2)
    else some (r.1, none, r.2.2.2)

/-! ### The line as it is typed -/

/-- What a character does to the text of a line. -/
def keep (text : List Byte) (Char : Byte) : List Byte :=
  if Char = 0x7F ∨ Char = 0x08 then text.dropLast
  else if Char = 0x20 ∧ (text = [] ∨ text.getLast? = some 0x20) then text
  else text ++ [Char]

/-- A line while it is typed: its text, and the bytes of the buffer that it has written, which
include those of characters that were taken back. -/
structure Draft where
  text : List Byte
  mark : ℕ → Option Byte

/-- The draft before the first character: the last byte of the buffer is cleared. -/
def Draft.start : Draft := ⟨[], Function.update (fun _ => none) (cmdLineSize - 1) (some 0)⟩

/-- A character is typed. -/
def Draft.type (d : Draft) (Char : Byte) : Draft :=
  let text := keep d.text Char
  ⟨text, if d.text.length < text.length then Function.update d.mark d.text.length (some Char)
    else d.mark⟩

/-- The line that the characters complete, and the characters that are left. -/
def draft : List Byte → Draft → Option (Draft × List Byte)
  | [], _ => none
  | Char :: keys, d =>
      if Char = 0x0D then some (d, keys)
      else
        let d := d.type Char
        if d.text.length < cmdLineSize - 1 then draft keys d else some (d, keys)

/-- The line fits into the buffer and lies at its start. -/
structure Draft.Valid (d : Draft) : Prop where
  length_lt : d.text.length < cmdLineSize
  mark_text : ∀ i (hi : i < d.text.length), d.mark i = some d.text[i]
  mark_last : ∀ i, cmdLineSize ≤ i → d.mark i = none

/-- A memory under the bytes that a line has written. -/
def overlay (mark : ℕ → Option Byte) (mem : Memory) : Memory := fun i => (mark i).getD (mem i)

section Edit

variable {d d' : Draft} {mem : Memory} {mark : ℕ → Option Byte} {keys rest text : List Byte}
  {c Char : Byte} {i : ℕ}

lemma overlay_update : Function.update (overlay mark mem) i c =
    overlay (Function.update mark i (some c)) mem := by
  funext j
  by_cases hj : j = i
  · subst hj
    simp [overlay]
  · simp [overlay, hj]

lemma overlay_of_mark (h : mark i = some c) : overlay mark mem i = c := by
  rw [overlay, h, Option.getD_some]

/-- The character before the end of the text, as the source reads it. -/
lemma overlay_getLast (hd : d.Valid) (hne : d.text ≠ []) :
    overlay d.mark mem (d.text.length - 1) = 0x20 ↔ d.text.getLast? = some 0x20 := by
  have hpos := List.length_pos_of_ne_nil hne
  rw [overlay_of_mark (hd.mark_text (d.text.length - 1) (by omega)),
    List.getLast?_eq_getLast_of_ne_nil hne, Option.some.injEq, List.getLast_eq_getElem]

/-- A character is added to the text, or the text becomes shorter or stays. -/
lemma keep_cases (text : List Byte) (Char : Byte) :
    keep text Char = text ++ [Char] ∨ ∃ n ≤ text.length, keep text Char = text.take n := by
  rw [keep]
  split_ifs
  · exact Or.inr ⟨text.length - 1, Nat.sub_le _ _, List.dropLast_eq_take⟩
  · exact Or.inr ⟨text.length, le_rfl, List.take_length.symm⟩
  · exact Or.inl rfl

/-- What a character does to a draft. -/
lemma Draft.type_cases (d : Draft) (Char : Byte) :
    d.type Char = ⟨d.text ++ [Char], Function.update d.mark d.text.length (some Char)⟩ ∨
      ∃ n ≤ d.text.length, d.type Char = ⟨d.text.take n, d.mark⟩ := by
  rw [Draft.type]
  rcases keep_cases d.text Char with heq | ⟨n, hn, heq⟩
  · rw [heq]
    exact Or.inl (by simp)
  · rw [heq]
    exact Or.inr ⟨n, hn, by simp⟩

/-- Typing keeps the line in the buffer. -/
lemma Draft.Valid.type (hd : d.Valid) (hlt : d.text.length < cmdLineSize - 1) :
    (d.type Char).Valid := by
  have h50 : cmdLineSize = 50 := rfl
  rcases d.type_cases Char with heq | ⟨n, hn, heq⟩
  · rw [heq]
    refine ⟨by simp only [List.length_append, List.length_singleton]; omega, fun i hi => ?_,
      fun i hi => ?_⟩
    · simp only [List.length_append, List.length_singleton] at hi
      by_cases hlast : i = d.text.length
      · subst hlast
        simp
      · dsimp only
        rw [Function.update_of_ne hlast, hd.mark_text i (by omega),
          List.getElem_append_left (by omega)]
    · dsimp only
      rw [Function.update_of_ne (by omega)]
      exact hd.mark_last i hi
  · rw [heq]
    refine ⟨by simp only [List.length_take]; omega, fun i hi => ?_, hd.mark_last⟩
    simp only [List.length_take] at hi
    dsimp only
    rw [hd.mark_text i (by omega), List.getElem_take]

/-- **A character in the source and in the draft.** -/
lemma scan_overlay (hd : d.Valid) : scan (overlay d.mark mem) d.text.length Char =
    if Char = 0x0D then (overlay d.mark mem, d.text.length, if d.text = [] then .skip else .leave)
    else (overlay (d.type Char).mark mem, (d.type Char).text.length, .again) := by
  have hzero : d.text.length = 0 ↔ d.text = [] := List.length_eq_zero_iff
  rw [scan, Draft.type, keep]
  by_cases herase : Char = 0x7F ∨ Char = 0x08
  · have hcr : Char ≠ 0x0D := by
      rcases herase with rfl | rfl <;> decide
    rw [if_pos herase, if_neg hcr, if_pos herase]
    have hlen : ¬ d.text.length < d.text.dropLast.length := by simp
    dsimp only
    rw [if_neg hlen, List.length_dropLast]
    by_cases h0 : d.text.length = 0
    · simp [h0]
    · rw [if_pos h0]
  · rw [if_neg herase, if_neg herase]
    have hskip : (d.text.length = 0 ∨ overlay d.mark mem (d.text.length - 1) = 0x20) ↔
        (d.text = [] ∨ d.text.getLast? = some 0x20) := by
      rw [hzero]
      by_cases hne : d.text = []
      · simp [hne]
      · rw [overlay_getLast hd hne]
    simp only [hskip]
    by_cases hspace : Char = 0x20 ∧ (d.text = [] ∨ d.text.getLast? = some 0x20)
    · have hcr : Char ≠ 0x0D := by
        rw [hspace.1]
        decide
      rw [if_pos hspace, if_neg hcr, if_pos hspace]
      simp
    · rw [if_neg hspace, if_neg hspace]
      by_cases hcr : Char = 0x0D
      · rw [if_pos hcr, if_pos hcr]
        by_cases hne : d.text = []
        · rw [if_pos hne, if_neg (not_not.mpr (hzero.mpr hne))]
        · rw [if_neg hne, if_pos (mt hzero.mp hne)]
      · rw [if_neg hcr, if_neg hcr]
        simp [overlay_update]

/-- **The loop of `command` and the draft.** Of the memory it changes only what the line
writes. -/
theorem edit_overlay (mem : Memory) (keys : List Byte) (hd : d.Valid) (hlt : d.text.length < cmdLineSize - 1) :
    edit keys (overlay d.mark mem) d.text.length = (draft keys d).map fun r =>
      (overlay r.1.mark mem, r.1.text.length, decide (r.1.text ≠ []), r.2) := by
  induction keys generalizing d with
  | nil => rfl
  | cons Char keys ih =>
      rw [edit, scan_overlay hd, draft]
      by_cases hcr : Char = 0x0D
      · rw [if_pos hcr, if_pos hcr]
        by_cases hne : d.text = []
        · simp [hne]
        · simp [hne]
      · rw [if_neg hcr, if_neg hcr]
        dsimp only
        by_cases hlen : (d.type Char).text.length < cmdLineSize - 1
        · rw [if_pos hlen, if_pos hlen, ih (hd.type hlt) hlen]
        · have hne : (d.type Char).text ≠ [] := by
            intro h0
            rw [h0] at hlen
            exact hlen (by decide)
          rw [if_neg hlen, if_neg hlen]
          simp [hne]

/-- A completed line lies in the buffer. -/
lemma Draft.Valid.draft (hd : d.Valid) (hlt : d.text.length < cmdLineSize - 1)
    (h : draft keys d = some (d', rest)) : d'.Valid := by
  induction keys generalizing d with
  | nil => simp [Console.draft] at h
  | cons Char keys ih =>
      rw [Console.draft] at h
      dsimp only at h
      by_cases hcr : Char = 0x0D
      · rw [if_pos hcr] at h
        obtain rfl : d = d' := congrArg Prod.fst (Option.some.inj h)
        exact hd
      · rw [if_neg hcr] at h
        by_cases hlen : (d.type Char).text.length < cmdLineSize - 1
        · rw [if_pos hlen] at h
          exact ih (hd.type hlt) hlen h
        · rw [if_neg hlen] at h
          obtain rfl : d.type Char = d' := congrArg Prod.fst (Option.some.inj h)
          exact hd.type hlt

lemma Draft.valid_start : Draft.start.Valid := by
  refine ⟨by decide, fun i hi => absurd hi (Nat.not_lt_zero i), fun i hi => ?_⟩
  have h50 : cmdLineSize = 50 := rfl
  have hne : i ≠ cmdLineSize - 1 := by omega
  rw [Draft.start]
  dsimp only
  rw [Function.update_of_ne hne]

/-- The loop of `command` on an empty line. -/
lemma edit_start (mem : Memory) (keys : List Byte) :
    edit keys (Function.update mem (cmdLineSize - 1) 0) 0 = (draft keys .start).map fun r =>
      (overlay r.1.mark mem, r.1.text.length, decide (r.1.text ≠ []), r.2) := by
  have hstart : Function.update mem (cmdLineSize - 1) 0 = overlay Draft.start.mark mem := by
    rw [Draft.start]
    dsimp only
    rw [← overlay_update]
    rfl
  rw [hstart]
  exact edit_overlay mem keys Draft.valid_start (by decide)

end Edit

/-! ### The call -/

/-- Where the name at the start of a text ends. -/
def nameEnd (text : List Byte) : ℕ := text.findIdx fun c => decide (c = 0 ∨ c = 0x20)

/-- The entry for a name. -/
def entry (services : List Service) (name : List Byte) : Option Service :=
  services.find? fun pItem => decide (name = pItem.pName)

/-- The option of a line: what is behind its first space. A line ends at a NUL. -/
def lineOption : List Byte → List Byte
  | [] => []
  | c :: text =>
      if c = 0 then []
      else if c = 0x20 then text.takeWhile fun c => decide (c ≠ 0)
      else lineOption text

/-- What a completed line leaves in the buffer, with the NUL behind its text. -/
def Draft.left (d : Draft) : ℕ → Option Byte := Function.update d.mark d.text.length (some 0)

/-- The memory that the called function finds. -/
def Draft.cut (d : Draft) (mem : Memory) : Memory :=
  if d.text[nameEnd d.text]? = some 0x20 then
    Function.update (overlay d.left mem) (nameEnd d.text) 0
  else overlay d.left mem

section Call

variable {d : Draft} {mem : Memory} {keys rest text : List Byte} {services : List Service} {i j : ℕ}

/-- The count ends at the first space or NUL. -/
lemma cmdSize_eq (hbelow : ∀ i < j, mem i ≠ 0 ∧ mem i ≠ 0x20) (hend : mem j = 0 ∨ mem j = 0x20)
    {fuel k : ℕ} (hk : k ≤ j) (hfuel : j < k + fuel) :
    cmdSize mem fuel k = some (j, if mem j = 0 then mem else Function.update mem j 0) := by
  induction fuel generalizing k with
  | zero => omega
  | succ fuel ih =>
      rw [cmdSize]
      by_cases hkj : k = j
      · subst hkj
        by_cases h0 : mem k = 0
        · rw [if_pos h0, if_pos h0]
        · rw [if_neg h0, if_neg h0, if_pos (hend.resolve_left h0)]
      · obtain ⟨h0, hspace⟩ := hbelow k (by omega)
        rw [if_neg h0, if_neg hspace, ih (by omega) (by omega)]

lemma nameEnd_le : nameEnd text ≤ text.length := List.findIdx_le_length

/-- The bytes of the name are neither spaces nor NULs. -/
lemma getElem_of_lt_nameEnd (hi : i < nameEnd text) (hlt : i < text.length) :
    text[i] ≠ 0 ∧ text[i] ≠ 0x20 := by
  have hno := List.not_of_lt_findIdx hi
  simpa using hno

/-- The byte behind the name. -/
lemma getElem_nameEnd (hlt : nameEnd text < text.length) :
    text[nameEnd text] = 0 ∨ text[nameEnd text] = 0x20 := by
  have hyes := List.findIdx_getElem (w := hlt)
  exact of_decide_eq_true hyes

lemma nameEnd_cons (c : Byte) (text : List Byte) :
    nameEnd (c :: text) = if c = 0 ∨ c = 0x20 then 0 else nameEnd text + 1 := by
  rw [nameEnd, List.findIdx_cons]
  by_cases h : c = 0 ∨ c = 0x20
  · rw [if_pos h, decide_eq_true h, cond_true]
  · rw [if_neg h, decide_eq_false h, cond_false, nameEnd]

/-- The option begins behind the name, if there is a space. -/
lemma lineOption_eq (text : List Byte) : lineOption text =
    if text[nameEnd text]? = some 0x20 then
      (text.drop (nameEnd text + 1)).takeWhile fun c => decide (c ≠ 0)
    else [] := by
  induction text with
  | nil => rfl
  | cons c text ih =>
      rw [lineOption, nameEnd_cons]
      by_cases h0 : c = 0
      · simp [h0]
      · by_cases hspace : c = 0x20
        · simp [hspace]
        · rw [if_neg h0, if_neg hspace, if_neg (not_or.mpr ⟨h0, hspace⟩), ih,
            List.getElem?_cons_succ, List.drop_succ_cons]

/-- A completed line in the buffer. -/
lemma Draft.Valid.overlay_left (hd : d.Valid) (hi : i < d.text.length) :
    overlay d.left mem i = d.text[i] := by
  refine overlay_of_mark ?_
  rw [Draft.left, Function.update_of_ne hi.ne]
  exact hd.mark_text i hi

/-- The NUL behind it. -/
lemma Draft.overlay_length : overlay d.left mem d.text.length = 0 :=
  overlay_of_mark (Function.update_self ..)

/-- Behind the name the call finds what the line left. -/
lemma Draft.cut_of_ne (hi : i ≠ nameEnd d.text) : d.cut mem i = overlay d.left mem i := by
  rw [Draft.cut]
  split_ifs
  · exact Function.update_of_ne hi _ _
  · rfl

/-- **`service` on a completed line** calls the entry for its name, with the pointer to the byte
behind the one that ends the name. -/
theorem service_overlay (services : List Service) (mem : Memory) (hd : d.Valid) :
    service services (overlay d.left mem) =
      some (d.cut mem, (entry services (d.text.take (nameEnd d.text))).map fun pItem =>
        (pItem, nameEnd d.text + 1)) := by
  have hle : nameEnd d.text ≤ d.text.length := nameEnd_le
  have hlt := hd.length_lt
  have hbelow : ∀ i < nameEnd d.text, overlay d.left mem i ≠ 0 ∧ overlay d.left mem i ≠ 0x20 := by
    intro i hi
    rw [hd.overlay_left (hi.trans_le hle)]
    exact getElem_of_lt_nameEnd hi _
  have hcase : (d.text[nameEnd d.text]? = some 0x20 ∧
        overlay d.left mem (nameEnd d.text) = 0x20) ∨
      (d.text[nameEnd d.text]? ≠ some 0x20 ∧ overlay d.left mem (nameEnd d.text) = 0) := by
    rcases Nat.eq_or_lt_of_le hle with heq | hin
    · refine Or.inr ⟨by rw [heq, List.getElem?_eq_none le_rfl]; simp, ?_⟩
      rw [heq]
      exact Draft.overlay_length
    · rw [hd.overlay_left hin, List.getElem?_eq_getElem hin, ne_eq, Option.some.injEq]
      rcases getElem_nameEnd hin with h0 | hspace
      · exact Or.inr ⟨by rw [h0]; decide, h0⟩
      · exact Or.inl ⟨hspace, hspace⟩
  have hsize : cmdSize (overlay d.left mem) cmdLineSize 0 =
      some (nameEnd d.text, d.cut mem) := by
    rw [cmdSize_eq hbelow (by tauto) (Nat.zero_le _) (by omega), Draft.cut]
    rcases hcase with ⟨hspace, hmem⟩ | ⟨hspace, hmem⟩
    · rw [if_pos hspace, hmem, if_neg (by decide)]
    · rw [if_neg hspace, if_pos hmem]
  have hname : (List.range (nameEnd d.text)).map (d.cut mem) = d.text.take (nameEnd d.text) := by
    refine List.ext_getElem (by simp [hle]) fun i h1 h2 => ?_
    rw [List.length_map, List.length_range] at h1
    rw [List.getElem_map, List.getElem_range, Draft.cut_of_ne h1.ne,
      hd.overlay_left (h1.trans_le hle), List.getElem_take]
  rw [service, hsize, Option.map_some]
  dsimp only
  congr 3
  rw [lookup, entry, hname]
  congr 1
  funext pItem
  rw [decide_eq_decide]
  constructor
  · exact fun h => h.2
  · intro h
    exact ⟨by rw [← h, List.length_take, Nat.min_eq_left hle], h⟩

/-- **A completed line of `command`.** -/
theorem command_overlay (services : List Service) (mem : Memory) (h : draft keys .start = some (d, rest)) :
    command services mem keys = if d.text = [] then some (overlay d.mark mem, none, rest)
      else some (d.cut mem, (entry services (d.text.take (nameEnd d.text))).map (fun pItem =>
        (pItem, nameEnd d.text + 1)), rest) := by
  have hd := Draft.valid_start.draft (by decide) h
  rw [command, edit_start, h, Option.map_some, Option.bind_some]
  dsimp only
  by_cases hne : d.text = []
  · simp [hne]
  · rw [if_pos (by simpa using hne), if_neg hne, overlay_update]
    have hservice := service_overlay services mem hd
    rw [Draft.left] at hservice
    rw [hservice, Option.map_some]

/-! ### Two runs -/

/-- The string `s` from `p` on, with its NUL. -/
def CString (mem : Memory) (p : ℕ) (s : List Byte) : Prop :=
  (∀ i (hi : i < s.length), mem (p + i) = s[i] ∧ s[i] ≠ 0) ∧ mem (p + s.length) = 0

/-- The line calls no function, or the one of an entry with an option that lies in `aCmdBuffer`
with its NUL. -/
def Passes (services : List Service) (mem : Memory) (keys : List Byte) :
    Option (Service × List Byte) → Prop
  | none => ∃ mem' rest, command services mem keys = some (mem', none, rest)
  | some (pItem, s) => ∃ mem' p rest,
      command services mem keys = some (mem', some (pItem, p), rest) ∧ CString mem' p s ∧
        p + s.length < cmdLineSize

/-- **A line does not depend on earlier lines**: with any two contents of the buffer it makes the
same call, and without an option in the line that option is empty. -/
structure Independent (services : List Service) (keys text : List Byte) : Prop where
  same : ∀ mem₁ mem₂, ∃ call, Passes services mem₁ keys call ∧ Passes services mem₂ keys call
  empty : lineOption text = [] → ∀ mem pItem s, Passes services mem keys (some (pItem, s)) → s = []

/-- A string that begins with a NUL is empty. -/
lemma CString.eq_nil {p : ℕ} (hs : CString mem p text) (h0 : mem p = 0) : text = [] := by
  cases text with
  | nil => rfl
  | cons c text =>
      obtain ⟨heq, hne⟩ := hs.1 0 (Nat.succ_pos _)
      rw [Nat.add_zero, h0] at heq
      exact absurd heq.symm hne

/-- A NUL of the line behind the end of the name is the empty string. -/
lemma cString_nil (hd : d.Valid) (hleft : d.left (nameEnd d.text + 1) = some 0) :
    CString (d.cut mem) (nameEnd d.text + 1) [] ∧
      nameEnd d.text + 1 + ([] : List Byte).length < cmdLineSize := by
  have hlt := hd.length_lt
  refine ⟨⟨fun i hi => absurd hi (Nat.not_lt_zero i), ?_⟩, ?_⟩
  · rw [List.length_nil, Nat.add_zero, Draft.cut_of_ne (by omega)]
    exact overlay_of_mark hleft
  · rw [List.length_nil, Nat.add_zero]
    by_contra hge
    have hnone := hd.mark_last (nameEnd d.text + 1) (not_lt.mp hge)
    rw [Draft.left, Function.update_of_ne (by omega), hnone] at hleft
    simp at hleft

/-- The byte behind a string is a NUL. -/
lemma getElem_takeWhile_length
    (hlt : (text.takeWhile fun c => decide (c ≠ 0)).length < text.length) :
    text[(text.takeWhile fun c => decide (c ≠ 0)).length] = 0 := by
  induction text with
  | nil => exact absurd hlt (Nat.not_lt_zero _)
  | cons c text ih =>
      by_cases h0 : c = 0
      · simp [h0]
      · rw [List.takeWhile_cons_of_pos (by simpa using h0), List.length_cons, List.length_cons] at hlt
        simp only [List.takeWhile_cons_of_pos (p := fun c : Byte => decide (c ≠ 0)) (a := c)
          (by simpa using h0), List.length_cons, List.getElem_cons_succ]
        exact ih (by omega)

/-- The option of a line with a space is the string that the function gets. -/
lemma cString_lineOption (hd : d.Valid) (hspace : d.text[nameEnd d.text]? = some 0x20) :
    CString (d.cut mem) (nameEnd d.text + 1) (lineOption d.text) ∧
      nameEnd d.text + 1 + (lineOption d.text).length < cmdLineSize := by
  set j := nameEnd d.text with hj
  have hlt : j < d.text.length := (List.getElem?_eq_some_iff.mp hspace).1
  have hlt50 := hd.length_lt
  have hmem : ∀ i, i ≠ j → d.cut mem i = overlay d.left mem i := fun i hi => Draft.cut_of_ne hi
  rw [lineOption_eq, if_pos hspace, ← hj]
  set tail := d.text.drop (j + 1) with htail
  have hlen : tail.length = d.text.length - (j + 1) := List.length_drop
  have hget : ∀ i (hi : i < tail.length), d.cut mem (j + 1 + i) = tail[i] := by
    intro i hi
    rw [hmem _ (by omega), hd.overlay_left (by omega), List.getElem_drop]
  have hpre := List.takeWhile_prefix (fun c : Byte => decide (c ≠ 0)) (l := tail)
  have hle := hpre.length_le
  refine ⟨⟨fun i hi => ?_, ?_⟩, by omega⟩
  · rw [hget i (by omega), hpre.getElem hi]
    refine ⟨rfl, ?_⟩
    have hne := List.all_eq_true.mp List.all_takeWhile _ (List.getElem_mem hi)
    rw [hpre.getElem hi] at hne
    exact of_decide_eq_true hne
  · rcases Nat.eq_or_lt_of_le hle with heq | hin
    · rw [heq, hmem _ (by omega), hlen, Nat.add_sub_cancel' hlt]
      exact Draft.overlay_length
    · rw [hget _ hin]
      exact getElem_takeWhile_length hin

/-- A line that calls a function without a space behind the name has to leave a NUL there, or the
bytes of an earlier line are passed. -/
lemma Independent.cases (hind : Independent services keys d.text)
    (h : draft keys .start = some (d, rest)) :
    d.text = [] ∨ entry services (d.text.take (nameEnd d.text)) = none ∨
      d.text[nameEnd d.text]? = some 0x20 ∨ d.left (nameEnd d.text + 1) = some 0 := by
  by_contra hno
  obtain ⟨hne, hentry, hspace, hleft⟩ : d.text ≠ [] ∧
      entry services (d.text.take (nameEnd d.text)) ≠ none ∧
      d.text[nameEnd d.text]? ≠ some 0x20 ∧ d.left (nameEnd d.text + 1) ≠ some 0 := by tauto
  obtain ⟨pItem, hitem⟩ := Option.ne_none_iff_exists'.mp hentry
  -- a byte of an earlier line behind the end of the name
  obtain ⟨call, hcall, -⟩ := hind.same (fun _ => 1) (fun _ => 1)
  have hcommand := command_overlay services (fun _ => 1) h
  rw [if_neg hne, hitem, Option.map_some] at hcommand
  cases call with
  | none =>
      obtain ⟨mem', rest', hrun⟩ := hcall
      rw [hrun] at hcommand
      simp at hcommand
  | some c =>
      have hempty := hind.empty (by rw [lineOption_eq, if_neg hspace]) _ _ _ hcall
      obtain ⟨mem', p, rest', hrun, ⟨-, hnul⟩, -⟩ := hcall
      rw [hrun, Option.some.injEq, Prod.mk.injEq, Prod.mk.injEq, Option.some.injEq,
        Prod.mk.injEq] at hcommand
      obtain ⟨rfl, ⟨-, rfl⟩, -⟩ := hcommand
      rw [hempty, List.length_nil, Nat.add_zero, Draft.cut_of_ne (by omega), overlay] at hnul
      cases hmark : d.left (nameEnd d.text + 1) with
      | none =>
          rw [hmark, Option.getD_none] at hnul
          exact absurd hnul (by decide)
      | some b =>
          rw [hmark, Option.getD_some] at hnul
          exact hleft (by rw [hmark, hnul])

/-- **The lines that do not depend on earlier ones** are those that call no function, those with
a space behind the name, and those that leave a NUL of their own behind the end of the name. -/
theorem independent_iff (h : draft keys .start = some (d, rest)) :
    Independent services keys d.text ↔
      d.text = [] ∨ entry services (d.text.take (nameEnd d.text)) = none ∨
        d.text[nameEnd d.text]? = some 0x20 ∨ d.left (nameEnd d.text + 1) = some 0 := by
  have hd := Draft.valid_start.draft (by decide) h
  constructor
  · exact fun hind => hind.cases h
  · intro hcase
    have hcommand := fun mem => command_overlay services mem h
    by_cases hne : d.text = []
    · simp only [if_pos hne] at hcommand
      refine ⟨fun mem₁ mem₂ => ⟨none, ⟨_, _, hcommand mem₁⟩, ⟨_, _, hcommand mem₂⟩⟩, ?_⟩
      rintro - mem pItem s ⟨mem', p, rest', hrun, -⟩
      rw [hcommand] at hrun
      simp at hrun
    · simp only [if_neg hne] at hcommand
      cases hentry : entry services (d.text.take (nameEnd d.text)) with
      | none =>
          simp only [hentry, Option.map_none] at hcommand
          refine ⟨fun mem₁ mem₂ => ⟨none, ⟨_, _, hcommand mem₁⟩, ⟨_, _, hcommand mem₂⟩⟩, ?_⟩
          rintro - mem pItem s ⟨mem', p, rest', hrun, -⟩
          rw [hcommand] at hrun
          simp at hrun
      | some pItem =>
          simp only [hentry, Option.map_some] at hcommand
          have hstring : ∀ mem, CString (d.cut mem) (nameEnd d.text + 1) (lineOption d.text) ∧
              nameEnd d.text + 1 + (lineOption d.text).length < cmdLineSize := by
            intro mem
            rcases hcase with h0 | h0 | hspace | hleft
            · exact absurd h0 hne
            · rw [hentry] at h0
              simp at h0
            · exact cString_lineOption hd hspace
            · by_cases hspace : d.text[nameEnd d.text]? = some 0x20
              · exact cString_lineOption hd hspace
              · rw [lineOption_eq, if_neg hspace]
                exact cString_nil hd hleft
          refine ⟨fun mem₁ mem₂ => ⟨some (pItem, lineOption d.text),
            ⟨_, _, _, hcommand mem₁, hstring mem₁⟩, ⟨_, _, _, hcommand mem₂, hstring mem₂⟩⟩, ?_⟩
          rintro hopt mem pItem' s ⟨mem', p, rest', hrun, hs, -⟩
          rw [hcommand, Option.some.injEq, Prod.mk.injEq, Prod.mk.injEq, Option.some.injEq,
            Prod.mk.injEq] at hrun
          obtain ⟨rfl, ⟨-, rfl⟩, -⟩ := hrun
          have hnul := (hstring mem).1.2
          rw [hopt, List.length_nil, Nat.add_zero] at hnul
          exact hs.eq_nil hnul

end Call

/-- A table of one service, and the line for it, `ls`, with an option `a` or without. -/
def list : Service := ⟨[0x6C, 0x73], 0⟩

/-- `ls a`. -/
theorem independent_iff_option : ∃ d, draft [0x6C, 0x73, 0x20, 0x61, 0x0D] .start = some (d, []) ∧
    Independent [list] [0x6C, 0x73, 0x20, 0x61, 0x0D] d.text := by
  refine ⟨_, rfl, (independent_iff rfl).mpr (Or.inr (Or.inr (Or.inl ?_)))⟩
  decide

/-- `ls`, where what an earlier line left behind the NUL is passed for the option. -/
theorem not_independent_ls : ∃ d, draft [0x6C, 0x73, 0x0D] .start = some (d, []) ∧
    ¬ Independent [list] [0x6C, 0x73, 0x0D] d.text := by
  refine ⟨_, rfl, fun hind => ?_⟩
  rcases hind.cases rfl with h0 | h0 | h0 | h0
  · exact absurd h0 (by decide)
  · exact absurd h0 (by decide)
  · exact absurd h0 (by decide)
  · exact absurd h0 (by decide)

end Console

end ChinaOS
