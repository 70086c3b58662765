import Inetutils.Lib.Cells
import Inetutils.Lib.Decimal
import Mathlib.Algebra.BigOperators.Group.List.Basic
import Mathlib.Algebra.Group.Action.Defs
import Mathlib.Data.UInt

/-! # The announcement of a talk

`format_line`, `finish_line` and `print_mesg` of `talkd/announce.c`. A line is formatted into 256
bytes, and its size is the one that it has uncut; `finish_line` pads every line by its size, behind
what is left of it. To write behind `buf` has no result, and neither has a text whose size is no
`int`. -/

namespace Inetutils.Talkd.Announce

open Lib.Cells Lib.Decimal List

abbrev Text := List UInt8

def nLines : ℕ := 5

def nChars : ℕ := 256

/-- `sizeof lp->buf` -/
def bufSize : ℕ := nLines * nChars + 3

/-- What is stored in `size` bytes, and the length of all of it. -/
def vsnprintf (size : ℕ) (text : Text) : Option (Text × ℕ) :=
  if text.length < 2 ^ 31 then some (text.take (size - 1), text.length) else none

/-- `LINE`, with the lines and sizes before `ind`. -/
structure Line where
  max_size : ℕ
  lines : List (Text × ℕ)
  le : lines.length ≤ nLines

def initLine : Line := ⟨0, [], Nat.zero_le _⟩

/-- **`format_line`** -/
def formatLine (lp : Line) (text : Text) : Option Line :=
  if h : lp.lines.length < nLines then
    (vsnprintf nChars text).map fun p =>
      ⟨max lp.max_size p.2, lp.lines ++ [p], by rw [List.length_append]; exact h⟩
  else some lp

def Line.padded (lp : Line) (p : Text × ℕ) : Text :=
  p.1 ++ List.replicate (lp.max_size + 2 - p.2) 32

/-- What `finish_line` writes in front of the NUL. -/
def Line.written (lp : Line) : Text := [7, 13, 10] ++ lp.lines.flatMap fun p =>
    lp.padded p ++ [13, 10]

/-- **`finish_line`** -/
def finishLine (lp : Line) : Option (Block UInt8) :=
  fill (List.replicate bufSize (some 0)) 0 (lp.written ++ [0])

/-! ### The announcement -/

def bytes (s : String) : Text := s.toList.map fun c => c.toNat.toUInt8

/-- `%02d` -/
def twoDigits (n : ℕ) : Text := if n < 10 then 48 :: decimal n else decimal n

def messageFrom (hostname : Text) (tm_hour : Fin 24) (tm_min : Fin 60) : Text :=
  bytes "Message from Talk_Daemon@" ++ hostname ++ bytes " at " ++ decimal tm_hour ++ bytes ":" ++
    twoDigits tm_min ++ bytes " ..."

def requestedBy (l_name remote_machine : Text) : Text :=
  bytes "talk: connection requested by " ++ l_name ++ bytes "@" ++ remote_machine

def respondWith (l_name remote_machine : Text) : Text :=
  bytes "talk: respond with:  talk " ++ l_name ++ bytes "@" ++ remote_machine

/-- **`print_mesg`**, up to `ttymsg`: the texts of its six calls of `format_line`. -/
def printMesg (hostname : Text) (tm_hour : Fin 24) (tm_min : Fin 60)
    (l_name remote_machine : Text) : List Text :=
  [[], messageFrom hostname tm_hour tm_min, requestedBy l_name remote_machine,
    respondWith l_name remote_machine, [], []]

/-- The announcement is built: in its lines and in `buf`, with the lines of one width. -/
def Announced (texts : List Text) : Prop :=
  ∃ lp, texts.foldlM formatLine initLine = some lp ∧ (∀ p ∈ lp.lines, p.1.length < nChars) ∧
    (finishLine lp).isSome ∧ ∃ w, ∀ p ∈ lp.lines, (lp.padded p).length = w

/-! ### The lines -/

def stored (text : Text) : Text × ℕ := (text.take (nChars - 1), text.length)

def longest (texts : List Text) : ℕ := (texts.map List.length).foldl max 0

theorem longest_concat (texts : List Text) (t : Text) :
    longest (texts ++ [t]) = max (longest texts) t.length := by
  simp [longest]

theorem length_le_longest {texts : List Text} {t : Text} (h : t ∈ texts) :
    t.length ≤ longest texts := by
  induction texts using List.reverseRecOn with
  | nil => cases h
  | append_singleton texts a ih =>
    rw [longest_concat]
    rcases mem_append.1 h with h | h
    · exact le_max_of_le_left (ih h)
    · rw [mem_singleton.1 h]
      exact le_max_right _ _

theorem exists_longest {texts : List Text} (h : texts ≠ []) :
    ∃ t ∈ texts, t.length = longest texts := by
  induction texts using List.reverseRecOn with
  | nil => exact absurd rfl h
  | append_singleton texts a ih =>
    rw [longest_concat]
    rcases le_total (longest texts) a.length with hle | hle
    · exact ⟨a, by simp, (max_eq_right hle).symm⟩
    · by_cases hnil : texts = []
      · subst hnil
        exact ⟨a, by simp, by simp [longest]⟩
      · obtain ⟨t, ht, hlen⟩ := ih hnil
        exact ⟨t, mem_append_left _ ht, by rw [hlen, max_eq_left hle]⟩

theorem foldlM_formatLine {texts : List Text} (h : texts.length ≤ nLines) :
    (texts.foldlM formatLine initLine =
        some ⟨longest texts, texts.map stored, by rwa [List.length_map]⟩ ∧ ∀ t ∈ texts,
        t.length < 2 ^ 31) ∨
      texts.foldlM formatLine initLine = none ∧ ∃ t ∈ texts, 2 ^ 31 ≤ t.length := by
  induction texts using List.reverseRecOn with
  | nil => exact .inl ⟨rfl, nofun⟩
  | append_singleton texts t ih =>
    rw [length_append, length_singleton] at h
    rw [foldlM_append]
    rcases ih (by omega) with ⟨heq, hlt⟩ | ⟨heq, s, hs, hle⟩
    · have hroom : (texts.map stored).length < nLines := by rw [length_map]; omega
      have hline : formatLine ⟨longest texts, texts.map stored, by rw [length_map]; omega⟩ t =
          (vsnprintf nChars t).map fun p =>
            ⟨max (longest texts) p.2,
              texts.map stored ++ [p], by rw [length_append]; exact hroom⟩ :=
        dif_pos hroom
      rw [heq, Option.bind_eq_bind, Option.bind_some, foldlM_cons, hline]
      by_cases ht : t.length < 2 ^ 31
      · refine .inl ⟨?_, fun s hs => ?_⟩
        · rw [vsnprintf, if_pos ht]
          simp [longest_concat, stored]
        · rcases mem_append.1 hs with hs | hs
          · exact hlt s hs
          · rwa [mem_singleton.1 hs]
      · refine .inr ⟨?_, t, by simp, by omega⟩
        rw [vsnprintf, if_neg ht]
        rfl
    · rw [heq]
      exact .inr ⟨rfl, s, mem_append_left _ hs, hle⟩

theorem formatLine_full {lp : Line} (h : lp.lines.length = nLines) (text : Text) :
    formatLine lp text = some lp :=
  dif_neg (by omega)

section
variable {lp : Line}

theorem length_padded_stored (t : Text) :
    (lp.padded (stored t)).length = min (nChars - 1) t.length + (lp.max_size + 2 - t.length) := by
  simp [Line.padded, stored]

theorem length_written {texts : List Text} (hlines : lp.lines = texts.map stored)
    (h : ∀ t ∈ texts, t.length < nChars ∧ t.length ≤ lp.max_size) :
    lp.written.length = 3 + texts.length * (lp.max_size + 4) := by
  have hline : ∀ t ∈ texts, (lp.padded (stored t) ++ [13, 10]).length = lp.max_size + 4 := by
    intro t ht
    obtain ⟨hlt, hle⟩ := h t ht
    rw [length_append, length_padded_stored]
    simp only [length_cons, length_nil]
    omega
  unfold Line.written
  rw [length_append, hlines, length_flatMap, map_map]
  have hmap : texts.map ((fun p => (lp.padded p ++ [13, 10]).length) ∘ stored) =
      texts.map fun _ => lp.max_size + 4 := map_congr_left hline
  rw [hmap, map_const', sum_replicate, smul_eq_mul]
  rfl

theorem finishLine_isSome_iff : (finishLine lp).isSome ↔ lp.written.length < bufSize := by
  unfold finishLine
  rw [fill_eq (Nat.zero_le _), length_replicate, length_append, length_singleton, Nat.zero_add]
  split_ifs with h
  · exact iff_of_true rfl h
  · exact iff_of_false nofun h

end

/-- **When lines are announced**: the longest is not cut, and `buf` holds as many lines of its
length. -/
theorem announced_iff {texts : List Text} (hlen : texts.length ≤ nLines) (hnil : [] ∈ texts) :
    Announced texts ↔
    longest texts < nChars ∧ 3 + texts.length * (longest texts + 4) < bufSize := by
  have hne : texts ≠ [] := ne_nil_of_mem hnil
  have hchars : nChars = 256 := rfl
  unfold Announced
  rcases foldlM_formatLine hlen with ⟨heq, -⟩ | ⟨heq, t, ht, hle⟩
  swap
  · have hlong := length_le_longest ht
    rw [heq]
    exact iff_of_false nofun fun h => by omega
  rw [heq]
  simp only [Option.some_inj, exists_eq_left']
  constructor
  · rintro ⟨-, hfits, w, hw⟩
    -- the empty line is as wide as the longest only if that is not cut
    obtain ⟨t, ht, hlong⟩ := exists_longest hne
    have hwidth := hw _ (mem_map_of_mem ht)
    have hempty := hw _ (mem_map_of_mem hnil)
    rw [length_padded_stored] at hwidth hempty
    simp only [length_nil] at hwidth hempty
    have hshort : longest texts < nChars := by omega
    have hwritten := @length_written ⟨longest texts, texts.map stored, by rwa [length_map]⟩ _ rfl
      fun t ht => ⟨(length_le_longest ht).trans_lt hshort, length_le_longest ht⟩
    rw [finishLine_isSome_iff, hwritten] at hfits
    exact ⟨hshort, hfits⟩
  · rintro ⟨hshort, hfits⟩
    refine ⟨fun p hp => ?_, ?_, longest texts + 2, fun p hp => ?_⟩
    · obtain ⟨t, -, rfl⟩ := mem_map.1 hp
      simp only [stored, length_take]
      omega
    · rwa [finishLine_isSome_iff, length_written rfl fun t ht =>
        ⟨(length_le_longest ht).trans_lt hshort, length_le_longest ht⟩]
    · obtain ⟨t, ht, rfl⟩ := mem_map.1 hp
      have hle := length_le_longest ht
      rw [length_padded_stored]
      dsimp only
      omega

/-! ### The names -/

theorem length_twoDigits (n : Fin 60) : (twoDigits n).length = 2 := by
  decide +revert

theorem length_messageFrom (hostname : Text) (tm_hour : Fin 24) (tm_min : Fin 60) :
    (messageFrom hostname tm_hour tm_min).length =
    hostname.length + (decimal tm_hour).length + 36 := by
  have hbytes : (bytes "Message from Talk_Daemon@").length = 25 ∧ (bytes " at ").length = 4 ∧
      (bytes ":").length = 1 ∧ (bytes " ...").length = 4 := by decide
  unfold messageFrom
  simp only [length_append, length_twoDigits, hbytes]
  omega

theorem length_requestedBy (l_name remote_machine : Text) :
    (requestedBy l_name remote_machine).length = l_name.length + remote_machine.length + 31 := by
  have hbytes : (bytes "talk: connection requested by ").length = 30 ∧
    (bytes "@").length = 1 := by decide
  unfold requestedBy
  simp only [length_append, hbytes]
  omega

theorem length_respondWith (l_name remote_machine : Text) :
    (respondWith l_name remote_machine).length = l_name.length + remote_machine.length + 27 := by
  have hbytes : (bytes "talk: respond with:  talk ").length = 26 ∧
    (bytes "@").length = 1 := by decide
  unfold respondWith
  simp only [length_append, hbytes]
  omega

theorem announced_concat {texts : List Text} (h : texts.length = nLines) (text : Text) :
    Announced (texts ++ [text]) ↔ Announced texts := by
  have hfold : (texts ++ [text]).foldlM formatLine initLine = texts.foldlM formatLine initLine := by
    rw [foldlM_append]
    rcases foldlM_formatLine h.le with ⟨heq, -⟩ | ⟨heq, -⟩
    · rw [heq, Option.bind_eq_bind, Option.bind_some, foldlM_cons,
        formatLine_full ((length_map _).trans h)]
      rfl
    · rw [heq]
      rfl
  unfold Announced
  rw [hfold]

def mesg (hostname : Text) (tm_hour : Fin 24) (tm_min : Fin 60) (l_name remote_machine : Text) :
    List Text :=
  [[], messageFrom hostname tm_hour tm_min, requestedBy l_name remote_machine,
    respondWith l_name remote_machine, []]

theorem announced_printMesg (hostname : Text) (tm_hour : Fin 24) (tm_min : Fin 60)
    (l_name remote_machine : Text) :
    Announced (printMesg hostname tm_hour tm_min l_name remote_machine) ↔
      longest (mesg hostname tm_hour tm_min l_name remote_machine) ≤ 251 := by
  have hsix : printMesg hostname tm_hour tm_min l_name remote_machine =
      mesg hostname tm_hour tm_min l_name remote_machine ++ [[]] := rfl
  have hlen : (mesg hostname tm_hour tm_min l_name remote_machine).length = nLines := rfl
  have hsize : nLines = 5 ∧ nChars = 256 ∧ bufSize = 1283 := ⟨rfl, rfl, rfl⟩
  rw [hsix, announced_concat hlen, announced_iff hlen.le (by simp [mesg]), hlen, hsize.1,
    hsize.2.1, hsize.2.2]
  omega

/-- **For which names the announcement is built.** -/
theorem print_mesg_iff (hostname : Text) (tm_hour : Fin 24) (tm_min : Fin 60)
    (l_name remote_machine : Text) :
    Announced (printMesg hostname tm_hour tm_min l_name remote_machine) ↔
      hostname.length + (decimal tm_hour).length ≤ 215 ∧
      l_name.length + remote_machine.length ≤ 220 := by
  rw [announced_printMesg]
  simp only [mesg, longest, map_cons, map_nil, foldl_cons, foldl_nil, length_nil,
    length_messageFrom, length_requestedBy, length_respondWith]
  omega

/-! ### A long name -/

/-- A caller of one byte, from a machine with a name of 220 bytes. -/
theorem not_announced_long :
    ¬ ∀ (hostname : Text) (tm_hour : Fin 24) (tm_min : Fin 60) (l_name remote_machine : Text),
    Announced (printMesg hostname tm_hour tm_min l_name remote_machine) := by
  intro h
  have hbuilt := (announced_printMesg [97] 12 30 [98] (List.replicate 220 99)).1 (h _ _ _ _ _)
  have hmem : requestedBy [98] (List.replicate 220 99) ∈ mesg [97] 12 30 [98]
    (List.replicate 220 99) := by simp [mesg]
  have hlong := length_le_longest hmem
  rw [length_requestedBy, length_replicate, length_singleton] at hlong
  omega

end Inetutils.Talkd.Announce
