import ChinaOS.Console

/-!
The editing of a command line.

* `typed`: the line that a sequence of characters makes, where a backspace takes the last
  character back and a space counts only behind a character that is none. `trim`: the same line
  without the space at its end.
* `Tidy`: no space begins the line, and none follows another one (`Tidy.typed`).
* `handed`: the memory that `command` hands to `service`.
* `edited_iff`: the lines that arrive at `service` as they should.
-/

namespace ChinaOS

namespace Console

/-- The line that the characters complete, behind `text`, and the characters that are left. -/
def typed : List Byte → List Byte → Option (List Byte × List Byte)
  | [], _ => none
  | Char :: keys, text =>
      if Char = 0x0D then some (text, keys)
      else
        let text := keep text Char
        if text.length < cmdLineSize - 1 then typed keys text else some (text, keys)

/-- A line without the space at its end. -/
def trim (text : List Byte) : List Byte :=
  if text.getLast? = some 0x20 then text.dropLast else text

/-- No space at the start of a line, and none behind another one. -/
structure Tidy (text : List Byte) : Prop where
  head : text.head? ≠ some 0x20
  single : ∀ i : ℕ, text[i]? = some 0x20 → text[i + 1]? ≠ some 0x20

/-- A complete line in `command`: the memory, whether it is handed to `service`, and the
characters that are left. -/
def handed (mem : Memory) (keys : List Byte) : Option (Memory × Bool × List Byte) :=
  (edit keys (Function.update mem (cmdLineSize - 1) 0) 0).map fun r =>
    (if r.2.2.1 then Function.update r.1 r.2.1 0 else r.1, r.2.2.1, r.2.2.2)

section Typed

variable {d d' : Draft} {keys rest text : List Byte} {Char : Byte} {n : ℕ}

/-- **The line and the draft** have the same text. -/
lemma typed_eq_draft : ∀ {keys : List Byte} {d : Draft},
    typed keys d.text = (draft keys d).map fun r => (r.1.text, r.2) := by
  intro keys
  induction keys with
  | nil => exact fun {d} => rfl
  | cons Char keys ih =>
      intro d
      have htext : (d.type Char).text = keep d.text Char := rfl
      rw [typed, draft]
      by_cases hcr : Char = 0x0D
      · rw [if_pos hcr, if_pos hcr]
        rfl
      · rw [if_neg hcr, if_neg hcr]
        dsimp only
        rw [htext]
        by_cases hlen : (keep d.text Char).length < cmdLineSize - 1
        · rw [if_pos hlen, if_pos hlen, ← htext, ih]
        · rw [if_neg hlen, if_neg hlen]
          rfl

lemma tidy_nil : Tidy [] := ⟨by simp, fun i hi => by simp at hi⟩

/-- The start of a tidy line is tidy. -/
lemma Tidy.take (h : Tidy text) (n : ℕ) : Tidy (text.take n) := by
  refine ⟨fun hhead => ?_, fun i hi hnext => ?_⟩
  · rw [List.head?_take] at hhead
    split_ifs at hhead
    exact h.head hhead
  · rw [List.getElem?_take] at hi hnext
    split_ifs at hi hnext
    exact h.single i hi hnext

/-- A character that is no space, or a space behind a character that is none. -/
lemma Tidy.append (h : Tidy text)
    (hc : Char = 0x20 → text ≠ [] ∧ text.getLast? ≠ some 0x20) : Tidy (text ++ [Char]) := by
  refine ⟨fun hhead => ?_, fun i hi hnext => ?_⟩
  · cases text with
    | nil =>
        rw [List.nil_append, List.head?_cons, Option.some.injEq] at hhead
        exact (hc hhead).1 rfl
    | cons c text =>
        rw [List.cons_append, List.head?_cons] at hhead
        exact h.head hhead
  · rcases Nat.lt_trichotomy (i + 1) text.length with hlt | heq | hgt
    · rw [List.getElem?_append_left (by omega)] at hi
      rw [List.getElem?_append_left hlt] at hnext
      exact h.single i hi hnext
    · rw [List.getElem?_append_left (by omega)] at hi
      rw [List.getElem?_append_right heq.ge, heq, Nat.sub_self, List.getElem?_cons_zero,
        Option.some.injEq] at hnext
      refine (hc hnext).2 ?_
      rw [List.getLast?_eq_getElem?, ← heq, Nat.add_sub_cancel]
      exact hi
    · rw [List.getElem?_eq_none (by simp only [List.length_append, List.length_singleton]; omega)]
        at hnext
      simp at hnext

/-- Every character keeps the line tidy. -/
lemma Tidy.keep (h : Tidy text) (Char : Byte) : Tidy (keep text Char) := by
  rw [Console.keep]
  split_ifs with herase hspace
  · rw [List.dropLast_eq_take]
    exact h.take _
  · exact h
  · refine h.append fun hc => ?_
    rw [not_and, not_or] at hspace
    exact hspace hc

/-- **A line is tidy.** -/
lemma Tidy.typed (h : Tidy text) {line : List Byte}
    (ht : typed keys text = some (line, rest)) : Tidy line := by
  induction keys generalizing text with
  | nil => simp [Console.typed] at ht
  | cons Char keys ih =>
      rw [Console.typed] at ht
      dsimp only at ht
      split_ifs at ht with hcr hlen
      · obtain rfl : text = line := congrArg Prod.fst (Option.some.inj ht)
        exact h
      · exact ih (h.keep Char) ht
      · obtain rfl : Console.keep text Char = line := congrArg Prod.fst (Option.some.inj ht)
        exact h.keep Char

end Typed

/-! ### What arrives at `service` -/

/-- **The editing of a line**: `service` gets the string of the line without the space at its end,
which has no space at its start, at its end or behind another one, and an empty line calls
nothing; only `aCmdBuffer` is written. -/
structure Edited (services : List Service) (mem : Memory) (keys text rest : List Byte) :
    Prop where
  empty : trim text = [] → ∃ mem', handed mem keys = some (mem', false, rest) ∧
    command services mem keys = some (mem', none, rest)
  string : trim text ≠ [] →
    ∃ mem', handed mem keys = some (mem', true, rest) ∧ CString mem' 0 (trim text)
  spaces : ∀ mem' s, handed mem keys = some (mem', true, rest) → CString mem' 0 s →
    Tidy s ∧ s.getLast? ≠ some 0x20
  buffer : ∃ mem' call, command services mem keys = some (mem', call, rest) ∧
    ∀ i, cmdLineSize ≤ i → mem' i = mem i

section Handed

variable {services : List Service} {d : Draft} {mem : Memory} {keys rest text s t : List Byte}
  {p : ℕ}

/-- `command` calls `service` on the memory that it hands on. -/
lemma command_eq_handed (services : List Service) (mem : Memory) (keys : List Byte) :
    command services mem keys = (handed mem keys).bind fun r =>
      if r.2.1 then (service services r.1).map fun s => (s.1, s.2, r.2.2)
      else some (r.1, none, r.2.2) := by
  rw [command, handed, Option.bind_map]
  refine congrArg _ (funext fun r => ?_)
  dsimp only [Function.comp_apply]
  cases r.2.2.1 with
  | false => rfl
  | true => rfl

/-- **What a completed line hands on.** -/
theorem handed_overlay (mem : Memory) (h : draft keys .start = some (d, rest)) :
    handed mem keys = if d.text = [] then some (overlay d.mark mem, false, rest)
      else some (overlay d.left mem, true, rest) := by
  rw [handed, edit_start, h, Option.map_some, Option.map_some]
  dsimp only
  by_cases hne : d.text = []
  · simp [hne]
  · rw [overlay_update]
    simp [hne, Draft.left]

/-- Behind the buffer nothing is written. -/
lemma Draft.Valid.overlay_of_le (hd : d.Valid) {i : ℕ} (hi : cmdLineSize ≤ i) :
    overlay d.mark mem i = mem i ∧ overlay d.left mem i = mem i ∧ d.cut mem i = mem i := by
  have hlt := hd.length_lt
  have hle : nameEnd d.text ≤ d.text.length := nameEnd_le
  have hnone := hd.mark_last i hi
  have hleft : d.left i = none := by
    rw [Draft.left, Function.update_of_ne (by omega)]
    exact hnone
  refine ⟨by rw [overlay, hnone, Option.getD_none], by rw [overlay, hleft, Option.getD_none], ?_⟩
  rw [Draft.cut_of_ne (by omega), overlay, hleft, Option.getD_none]

/-- The string from a place on is unique. -/
lemma CString.unique (hs : CString mem p s) (ht : CString mem p t) : s = t := by
  have hle : ∀ {s t : List Byte}, CString mem p s → CString mem p t → s.length ≤ t.length := by
    intro s t hs ht
    by_contra hlt
    obtain ⟨heq, hne⟩ := hs.1 t.length (not_le.mp hlt)
    rw [ht.2] at heq
    exact hne heq.symm
  refine List.ext_getElem (le_antisymm (hle hs ht) (hle ht hs)) fun i hi hi' => ?_
  rw [← (hs.1 i hi).1, (ht.1 i hi').1]

/-- A line without a NUL is the string at the start of the buffer. -/
lemma Draft.Valid.cString (hd : d.Valid) (h0 : 0 ∉ d.text) :
    CString (overlay d.left mem) 0 d.text := by
  refine ⟨fun i hi => ?_, ?_⟩
  · rw [Nat.zero_add, hd.overlay_left hi]
    exact ⟨rfl, fun hzero => h0 (hzero ▸ List.getElem_mem hi)⟩
  · rw [Nat.zero_add]
    exact Draft.overlay_length

/-- The string that ends before the last character of a line does not arrive. -/
lemma Draft.Valid.not_cString_dropLast (hd : d.Valid) (hlast : d.text.getLast? = some 0x20) :
    ¬ CString (overlay d.left mem) 0 d.text.dropLast := by
  rintro ⟨-, hnul⟩
  have hne : d.text ≠ [] := by
    intro h0
    rw [h0] at hlast
    simp at hlast
  have hpos := List.length_pos_of_ne_nil hne
  rw [List.getLast?_eq_getElem?, List.getElem?_eq_getElem (by omega), Option.some.injEq] at hlast
  rw [Nat.zero_add, List.length_dropLast, hd.overlay_left (by omega), hlast] at hnul
  exact absurd hnul (by decide)

/-- A line with nothing to drop is the line itself. -/
lemma trim_of_ne (h : text.getLast? ≠ some 0x20) : trim text = text := if_neg h

/-- Only the empty line and a space alone are empty without the space. -/
lemma trim_eq_nil (h : Tidy text) : trim text = [] ↔ text = [] := by
  constructor
  · intro hnil
    rw [trim] at hnil
    split_ifs at hnil with hlast
    · cases text with
      | nil => rfl
      | cons c text =>
          have htext : text = [] := by
            by_contra hne
            rw [List.dropLast_cons_of_ne_nil hne] at hnil
            exact List.cons_ne_nil _ _ hnil
          rw [htext] at hlast h
          exact absurd hlast h.head
    · exact hnil
  · rintro rfl
    rfl

/-- What arrives is the line without the space at its end: so there is none, and no NUL. -/
lemma Edited.proper (he : Edited services mem keys d.text rest) (htidy : Tidy d.text)
    (h : draft keys .start = some (d, rest)) : d.text.getLast? ≠ some 0x20 ∧ 0 ∉ d.text := by
  have hd := Draft.valid_start.draft (by decide) h
  by_cases hne : d.text = []
  · simp [hne]
  · obtain ⟨mem', hhanded, hstring⟩ := he.string ((trim_eq_nil htidy).not.mpr hne)
    rw [handed_overlay mem h, if_neg hne, Option.some.injEq, Prod.mk.injEq] at hhanded
    obtain ⟨rfl, -⟩ := hhanded
    have hlast : d.text.getLast? ≠ some 0x20 := by
      intro hlast
      rw [trim, if_pos hlast] at hstring
      exact hd.not_cString_dropLast hlast hstring
    refine ⟨hlast, fun h0 => ?_⟩
    rw [trim_of_ne hlast] at hstring
    obtain ⟨i, hi, hzero⟩ := List.getElem_of_mem h0
    exact (hstring.1 i hi).2 hzero

/-- A line without a space at its end and without a NUL arrives. -/
lemma edited_of_proper (htidy : Tidy d.text) (h : draft keys .start = some (d, rest))
    (hlast : d.text.getLast? ≠ some 0x20) (h0 : 0 ∉ d.text) :
    Edited services mem keys d.text rest := by
  have hd := Draft.valid_start.draft (by decide) h
  have hhanded := handed_overlay mem h
  have hcommand := command_overlay services mem h
  by_cases hne : d.text = []
  · rw [if_pos hne] at hhanded hcommand
    refine ⟨fun _ => ⟨_, hhanded, hcommand⟩, fun hne' => ?_, fun mem' s hmem => ?_,
      ⟨_, _, hcommand, fun i hi => (hd.overlay_of_le hi).1⟩⟩
    · exact absurd ((trim_eq_nil htidy).mpr hne) hne'
    · rw [hhanded] at hmem
      simp at hmem
  · rw [if_neg hne] at hhanded hcommand
    have hstring : CString (overlay d.left mem) 0 d.text := hd.cString h0
    refine ⟨fun hnil => absurd ((trim_eq_nil htidy).mp hnil) hne, fun _ => ⟨_, hhanded, ?_⟩,
      fun mem' s hmem hs => ?_, ⟨_, _, hcommand, fun i hi => (hd.overlay_of_le hi).2.2⟩⟩
    · rw [trim_of_ne hlast]
      exact hstring
    · rw [hhanded, Option.some.injEq, Prod.mk.injEq] at hmem
      rw [← hmem.1] at hs
      obtain rfl := hs.unique hstring
      exact ⟨htidy, hlast⟩

end Handed

/-! ### The result -/

/-- **The lines that arrive as they should** are those without a space at their end, and without
a NUL. -/
theorem edited_iff {services : List Service} {mem : Memory} {keys text rest : List Byte}
    (h : typed keys [] = some (text, rest)) :
    Edited services mem keys text rest ↔ text.getLast? ≠ some 0x20 ∧ 0 ∉ text := by
  have htidy : Tidy text := tidy_nil.typed h
  have hdraft : typed keys Draft.start.text = (draft keys Draft.start).map fun r =>
      (r.1.text, r.2) := typed_eq_draft
  rw [show Draft.start.text = [] from rfl, h, eq_comm, Option.map_eq_some_iff] at hdraft
  obtain ⟨⟨d, rest'⟩, hd, heq⟩ := hdraft
  obtain ⟨rfl, rfl⟩ := Prod.mk.inj heq
  exact ⟨fun he => he.proper htidy hd, fun hproper => edited_of_proper htidy hd hproper.1 hproper.2⟩

/-- A line with a character that is taken back. -/
theorem edited_iff_ls : Edited [] (fun _ => 1) [0x20, 0x6C, 0x20, 0x08, 0x73, 0x0D] [0x6C, 0x73] [] :=
  (edited_iff (by decide)).mpr ⟨by decide, by decide⟩

/-- **A line with a space at its end** arrives with it. -/
theorem not_edited_space : typed [0x61, 0x20, 0x0D] [] = some ([0x61, 0x20], []) ∧
    ¬ Edited [] (fun _ => 1) [0x61, 0x20, 0x0D] [0x61, 0x20] [] := by
  refine ⟨by decide, fun he => ?_⟩
  obtain ⟨mem', hmem, -, hnul⟩ := he.string (by decide)
  have hbyte : (handed (fun _ => 1) [0x61, 0x20, 0x0D]).map (fun r => r.1 1) = some 0x20 := by
    decide
  rw [hmem, Option.map_some, Option.some.injEq] at hbyte
  have hend : mem' 1 = 0 := hnul
  exact absurd (hend.symm.trans hbyte) (by decide)

end Console

end ChinaOS
