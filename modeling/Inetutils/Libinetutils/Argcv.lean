import Inetutils.Lib.Tokens
import Inetutils.Telnetd.Argcv

/-! # The grammar of `argcv_get`

`argcv_get` of `libinetutils/argcv.c` with any delimiters: the pass that counts, and the pass that
extracts, on top of the scan of `Telnetd.Argcv`. A quote that has no other falls through to the
plain case with the index at the end of the trimmed command, and takes the byte there, which is
white space that was trimmed, or the NUL. -/

namespace Inetutils.Libinetutils.Argcv

open Lib.Words Lib.Templates Lib.Tokens Telnet.Proto Telnetd.Argcv List

/-- A string whose places an `int` can count. -/
abbrev Command := { l : List Byte // 0 ∉ l ∧ l.length + 1 < 2 ^ 31 }

section
variable (len : ℕ) (command delim : List Byte)

/-- The scans of `while (argcv_scan (len, command, delim, &start, &end, &save) < len)`, if it ends
within `n` turns. -/
def count : ℕ → ℕ → Option (List Scan)
  | 0, _ => none
  | n + 1, save =>
    let s := argcvScan len command delim save
    if s.save < len then (count n s.save).map (s :: ·) else some [s]

/-- The scans of `for (i = 0; i < *argc; i++)`. -/
def extract : ℕ → ℕ → List Scan
  | 0, _ => []
  | argc + 1, save =>
    let s := argcvScan len command delim save
    s :: extract argc s.save

end

/-- **`argcv_get`**: the scans of both passes. -/
def argcv_get (n : ℕ) (command delim : List Byte) : Option (List Scan × List Scan) :=
  let len := trimLen command command.length
  if len < 1 then some ([], [])
  else (count len command delim n 0).map fun s => (s, extract len command delim s.length 0)

def argv (command : List Byte) (s : List Scan) : List (List Byte) :=
  s.map fun s => copyWord command (unquote command s)

/-! ### The grammar -/

/-- Blanks, quotes and delimiters; a double quote cuts a token too. -/
def signs (delim : List Byte) : Signs Byte where
  blank := isws
  quote c := c == dquote || c == squote
  delim := delim.contains
  cut c := c == dquote

abbrev trimmed (command : List Byte) : List Byte := trim lexis command

/-- The call ends, both passes visit the same tokens, these are the tokens of the grammar, and each
lies in the trimmed command. -/
def Right (command delim : List Byte) : Prop :=
  ∃ n scans ts, argcv_get n command delim = some (scans, scans) ∧
    Reads (signs delim) (trimmed command) ts ∧
    argv command scans = ts.map Token.text ∧
    ∀ s ∈ scans, (unquote command s).start + (copyWord command (unquote command s)).length ≤
    (trimmed command).length

def Unmatched (command delim : List Byte) : Prop :=
  ∃ ts, Reads (signs delim) (trimmed command) ts ∧ ∃ t ∈ ts, t.isUnmatched

/-! ### One scan -/

/-- Where the token is that begins at `p`. -/
def spanOf (p : ℕ) : Token Byte → Span
  | .quoted _ w => ⟨p + 1, w.length⟩
  | .unmatched _ w => ⟨p, w.length + 2⟩
  | .delimiter _ => ⟨p, 1⟩
  | .plain w => ⟨p, w.length⟩

def nextSave (len p : ℕ) (t : Token Byte) : ℕ := if t.isUnmatched then len + 1 else p + t.size

/-- What is copied of the token, when `after` follows the trimmed command. -/
def copied (after : List Byte) (t : Token Byte) : List Byte :=
  t.text ++ if t.isUnmatched then after.take 1 else []

section
variable {command delim : List Byte} {len save : ℕ}

theorem isdelim_iff {c : Byte} (h : c ≠ 0) : isdelim delim c ↔
    (signs delim).cut c ∨ (signs delim).delim c := by
  simp [isdelim, signs, h]

theorem inner_iff {c : Byte} (h : c ≠ 0) :
    (signs delim).inner c = !(isws c || isdelim delim c) := by
  have hdelim : isdelim delim c = ((signs delim).cut c || (signs delim).delim c) := by
    rw [Bool.eq_iff_iff, isdelim_iff h, Bool.or_eq_true]
  rw [hdelim]
  rfl

variable {n : ℕ} {t : Token Byte} {rest : List Byte}

theorem scan_first (hnul : 0 ∉ command) (hlen : len ≤ command.length) (hs : save ≤ len)
    (hend : ¬ lexis.quote (char command len))
    (h : First (signs delim) ((command.take len).drop save) n t rest) :
    unquote command (argcvScan len command delim save) = spanOf (save + n) t ∧
      (argcvScan len command delim save).save = nextSave len (save + n) t := by
  generalize hl : (command.take len).drop save = l at h
  have hn := length_of_drop hlen hl hs
  have hstart : ∀ {g r : List Byte} {c : Byte}, l = g ++ c :: r → (∀ c ∈ g, isws c) → ¬ isws c →
      skip isws command (len - save) save = save + g.length := fun he hg hc =>
    skip_of_leads isws hs hlen (hl.trans he) hg (by rintro c ⟨⟩; exact hc)
  cases h with
  | @quoted g w _ q hg hb hq hw =>
    have hstart := hstart rfl hg hb
    have hc : char command (save + g.length) = q := char_add hl (by simp)
    have hl' : (command.take len).drop (save + g.length + 1) = w ++ q :: rest := by
      have := drop_add_of_eq (l := g ++ [q]) (r := w ++ q :: rest) (by simpa using hl)
      simpa [add_assoc] using this
    simp only [length_append, length_cons] at hn
    have hmatch :
        skip (fun d => d ≠ q) command (len - (save + g.length + 1)) (save + g.length + 1) =
        save + g.length + 1 + w.length :=
      skip_of_leads _ (by omega) hlen hl' (fun c hc => by simpa using hw c hc)
        (by rintro c ⟨⟩; simp)
    have hc' : char command (save + g.length + 1 + w.length) = q := char_add hl' (by simp)
    have hscan : argcvScan len command delim save =
        ⟨save + g.length, save + g.length + 1 + w.length, save + g.length + 1 + w.length + 1⟩ := by
      simp only [argcvScan, hstart, hc, hmatch]
      rw [if_pos ⟨lexis_quote_iff.mp hq, by omega⟩]
    rw [hscan, unquote_of_eq hq hc hc']
    constructor
    · simp only [spanOf, Span.mk.injEq, true_and]
      omega
    · change save + g.length + 1 + w.length + 1 = save + g.length + (w.length + 2)
      omega
  | @unmatched g w q hg hb hq hw =>
    have hstart := hstart rfl hg hb
    have hc : char command (save + g.length) = q := char_add hl (by simp)
    have hl' : (command.take len).drop (save + g.length + 1) = w ++ [] := by
      have := drop_add_of_eq (l := g ++ [q]) (r := w) (by simpa using hl)
      simpa [add_assoc] using this
    simp only [length_append, length_cons] at hn
    have hmatch : skip (fun d => d ≠ q) command (len - (save + g.length + 1))
      (save + g.length + 1) = len := by
      rw [skip_of_leads _ (by omega) hlen hl' (fun c hc => by simpa using hw c hc) (by simp)]
      omega
    have hzero : len - (len + 1) = 0 := by omega
    have hscan : argcvScan len command delim save = ⟨save + g.length, len, len + 1⟩ := by
      have hqq : q = dquote ∨ q = squote := lexis_quote_iff.mp hq
      simp only [argcvScan, hstart, hc, hmatch]
      rw [if_neg (by simp), if_pos hqq, hzero, skip]
      split_ifs <;> rfl
    rw [hscan, unquote_of_ne hend]
    constructor
    · simp only [spanOf, Span.mk.injEq, true_and]
      omega
    · rfl
  | @delimiter g _ c hg hb hq hd =>
    have hstart := hstart rfl hg hb
    have hc : char command (save + g.length) = c := char_add hl (by simp)
    have hnq : ¬ (c = dquote ∨ c = squote) := fun h => hq (lexis_quote_iff.mpr h)
    have hdelim : isdelim delim c := by
      rw [isdelim, Bool.or_eq_true]
      exact .inr hd
    have hscan : argcvScan len command delim save =
      ⟨save + g.length, save + g.length, save + g.length + 1⟩ := by
      simp only [argcvScan, hstart, hc]
      rw [if_neg (fun h => hnq h.1), if_neg hnq, hc, if_pos hdelim]
    rw [hscan, unquote_of_not_quote (by rw [hc]; exact hq)]
    constructor
    · simp only [spanOf, Span.mk.injEq, true_and]
      omega
    · rfl
  | @plain g w _ c hg hb hq hd hw hr =>
    have hstart := hstart rfl hg hb
    have hc : char command (save + g.length) = c := char_add hl (by simp)
    have hl' : (command.take len).drop (save + g.length + 1) = w ++ rest := by
      have := drop_add_of_eq (l := g ++ [c]) (r := w ++ rest) (by simpa using hl)
      simpa [add_assoc] using this
    have hnz : ∀ a ∈ g ++ c :: (w ++ rest), a ≠ 0 := by
      rintro a ha rfl
      rw [← hl] at ha
      exact hnul (mem_of_mem_take (mem_of_mem_drop ha))
    simp only [length_append, length_cons] at hn
    have hskip : skip (fun d => !(isws d || isdelim delim d)) command (len - (save + g.length + 1))
        (save + g.length + 1) = save + g.length + 1 + w.length := by
      refine skip_of_leads _ (by omega) hlen hl' (fun a ha => ?_) fun a ha => ?_
      · rw [← inner_iff (hnz a (by simp [ha]))]
        exact hw a ha
      · rw [← inner_iff (hnz a (by simp [mem_of_mem_head? ha]))]
        exact hr a ha
    have hnq : ¬ (c = dquote ∨ c = squote) := fun h => hq (lexis_quote_iff.mpr h)
    have hdelim : ¬ isdelim delim c := by
      rw [isdelim_iff (hnz c (by simp)), not_or]
      exact ⟨fun h => hnq (.inl (beq_iff_eq.1 h)), hd⟩
    have hscan : argcvScan len command delim save =
        ⟨save + g.length, save + g.length + 1 + w.length - 1, save + g.length + 1 + w.length⟩ := by
      simp only [argcvScan, hstart, hc]
      rw [if_neg (fun h => hnq h.1), if_neg hnq, hc, if_neg hdelim, hskip]
    rw [hscan, unquote_of_not_quote (by rw [hc]; exact hq)]
    constructor
    · simp only [spanOf, Span.mk.injEq, true_and, length_cons]
      omega
    · change save + g.length + 1 + w.length = save + g.length + (w.length + 1)
      omega

theorem copyWord_spanOf (hlen : len ≤ command.length) (hs : save ≤ len)
    (h : First (signs delim) ((command.take len).drop save) n t rest) :
    copyWord command (spanOf (save + n) t) = copied (command.drop len) t ∧
      (spanOf (save + n) t).start + t.text.length ≤ len := by
  have hsplit : (command.take len).drop save ++ command.drop len = command.drop save := by
    conv_rhs => rw [← take_append_drop len command]
    rw [drop_append_of_le_length (by rw [length_take]; omega)]
  generalize hl : (command.take len).drop save = l at h hsplit
  have hn := length_of_drop hlen hl hs
  have hcopy : ∀ {g u v : List Byte}, l = g ++ (u ++ v) →
      copyWord command ⟨save + g.length, u.length⟩ = u := fun he => by
    rw [copyWord, ← drop_drop, ← hsplit, he, append_assoc, drop_left, append_assoc, take_left]
  cases h with
  | @quoted g w _ q =>
    simp only [length_append, length_cons] at hn
    have hcopy := hcopy (g := g ++ [q]) (u := w) (v := q :: rest) (by simp)
    rw [length_append, length_singleton, ← Nat.add_assoc] at hcopy
    refine ⟨hcopy.trans (append_nil w).symm, ?_⟩
    change save + g.length + 1 + w.length ≤ len
    omega
  | @unmatched g w q =>
    simp only [length_append, length_cons] at hn
    refine ⟨?_, ?_⟩
    · change (command.drop (save + g.length)).take (w.length + 2) =
        q :: w ++ (command.drop len).take 1
      rw [← drop_drop, ← hsplit, append_assoc, drop_left, take_append]
      have hlen : (q :: w).length = w.length + 1 := rfl
      rw [hlen, take_of_length_le (by rw [hlen]; omega), Nat.add_sub_cancel_left (w.length + 1) 1]
    · change save + g.length + (w.length + 1) ≤ len
      omega
  | @delimiter g _ c =>
    simp only [length_append, length_cons] at hn
    refine ⟨(hcopy (u := [c]) (v := rest) rfl).trans (append_nil [c]).symm, ?_⟩
    change save + g.length + 1 ≤ len
    omega
  | @plain g w _ c =>
    simp only [length_append, length_cons] at hn
    refine ⟨(hcopy (u := c :: w) (v := rest) rfl).trans (append_nil (c :: w)).symm, ?_⟩
    change save + g.length + (w.length + 1) ≤ len
    omega

/-! ### The passes -/

theorem exists_not_blank (hlast : ∀ c ∈ (command.take len).getLast?, ¬ lexis.space c)
    (hlen : len ≤ command.length)
    (hs : save < len) : ¬ ∀ c ∈ (command.take len).drop save, isws c := by
  intro hblank
  have hne : (command.take len).drop save ≠ [] := fun hnil => by
    have := congrArg List.length hnil
    rw [length_drop, length_take, length_nil] at this
    omega
  obtain ⟨c, hc⟩ := Option.isSome_iff_exists.1 (getLast?_isSome.2 hne)
  have hmem := mem_of_getLast? hc
  rw [getLast?_drop, if_neg (by rw [length_take]; omega)] at hc
  exact hlast c hc (lexis.space_of_blank (hblank c hmem))

variable (delim) in
theorem passes_eq (hnul : 0 ∉ command) (hlen : len ≤ command.length)
    (hend : ¬ lexis.quote (char command len))
    (hlast : ∀ c ∈ (command.take len).getLast?, ¬ lexis.space c) {ts : List (Token Byte)} :
    ∀ {save : ℕ}, save < len → Reads (signs delim) ((command.take len).drop save) ts →
      ∃ scans, count len command delim ts.length save = some scans ∧
        extract len command delim scans.length save = scans ∧
        argv command scans = ts.map (copied (command.drop len)) ∧
        ∀ s ∈ scans, ∃ t ∈ ts, copyWord command (unquote command s) = copied (command.drop len) t ∧
          (unquote command s).start + t.text.length ≤ len := by
  induction ts with
  | nil =>
    intro save hs h
    cases h with
    | nil hblank => exact absurd hblank (exists_not_blank hlast hlen hs)
  | cons t ts ih =>
    intro save hs h
    cases h with
    | @cons _ rest n _ _ hfirst hrest =>
      obtain ⟨hspan, hsave⟩ := scan_first hnul hlen hs.le hend hfirst
      obtain ⟨hcopy, hle⟩ := copyWord_spanOf hlen hs.le hfirst
      have hn := length_of_drop hlen rfl hs.le
      rw [hfirst.length_eq] at hn
      rw [← hspan] at hcopy hle
      rcases eq_or_ne rest [] with rfl | hne
      · -- the last token
        have hend : len ≤ nextSave len (save + n) t := by
          rw [length_nil] at hn
          unfold nextSave
          split_ifs <;> omega
        obtain rfl : ts = [] := hrest.unique (.nil nofun)
        refine ⟨[argcvScan len command delim save], ?_, rfl, congrArg (· :: []) hcopy,
          fun s hmem => ?_⟩
        · rw [length_singleton, count, if_neg (by rw [hsave]; omega)]
        · rw [mem_singleton.1 hmem]
          exact ⟨t, mem_singleton_self t, hcopy, hle⟩
      · have hpos := length_pos_iff.2 hne
        have hnext : nextSave len (save + n) t = save + (n + t.size) := by
          unfold nextSave
          rw [if_neg (by rw [hfirst.isUnmatched_eq_false hne]; exact Bool.false_ne_true), add_assoc]
        have hdrop : (command.take len).drop (save + (n + t.size)) =
          rest := by rw [← drop_drop, hfirst.drop_eq]
        have hlt : save + (n + t.size) < len := by omega
        obtain ⟨scans, hcount, hextract, hargv, hall⟩ := ih hlt (hdrop.symm ▸ hrest)
        rw [hnext] at hsave
        refine ⟨argcvScan len command delim save :: scans, ?_, ?_, ?_, fun s hmem => ?_⟩
        · rw [length_cons, count, hsave, if_pos hlt, hcount, Option.map_some]
        · rw [length_cons, extract, hsave, hextract]
        · exact congrArg₂ List.cons hcopy hargv
        · rcases mem_cons.1 hmem with rfl | hmem
          · exact ⟨t, mem_cons_self, hcopy, hle⟩
          · obtain ⟨t', ht', h⟩ := hall s hmem
            exact ⟨t', mem_cons_of_mem _ ht', h⟩

theorem count_unique {scans scans' : List Scan} : ∀ {n n' save : ℕ},
    count len command delim n save = some scans → count len command delim n' save = some scans' →
    scans = scans'
  | n + 1, n' + 1, save, h, h' => by
    rw [count] at h h'
    split_ifs at h h'
    · obtain ⟨s, hs, rfl⟩ := Option.map_eq_some_iff.1 h
      obtain ⟨s', hs', rfl⟩ := Option.map_eq_some_iff.1 h'
      rw [count_unique hs hs']
    · exact Option.some.inj (h.symm.trans h')

theorem argcv_get_unique {n' : ℕ} {s s' u u' : List Scan}
    (h : argcv_get n command delim = some (s, s'))
    (h' : argcv_get n' command delim = some (u, u')) : s = u := by
  rw [argcv_get] at h h'
  split_ifs at h h'
  · exact (Prod.mk.inj (Option.some.inj (h.symm.trans h'))).1
  · obtain ⟨v, hv, heq⟩ := Option.map_eq_some_iff.1 h
    obtain ⟨v', hv', heq'⟩ := Option.map_eq_some_iff.1 h'
    rw [← (Prod.mk.inj heq).1, ← (Prod.mk.inj heq').1]
    exact count_unique hv hv'

theorem copied_eq_text_iff {after : List Byte} :
    copied after t = t.text ↔ after = [] ∨ ¬ t.isUnmatched := by
  rw [copied, append_right_eq_self]
  split_ifs with ht
  · rw [take_eq_nil_iff, or_iff_right Nat.one_ne_zero, or_iff_left (not_not_intro ht)]
  · exact iff_of_true rfl (.inr ht)

theorem drop_trimmed_eq_nil_iff : command.drop (trimmed command).length = [] ↔
    trimmed command = command := by
  have htake := take_length_trim command
  constructor
  · intro h
    conv_rhs => rw [← take_append_drop (trimmed command).length command, h, append_nil]
    exact htake.symm
  · intro h
    rw [h, drop_length]

theorem argcv_get_eq (hnul : 0 ∉ command) (hne : trimmed command ≠ []) {ts : List (Token Byte)}
    (hts : Reads (signs delim) (trimmed command) ts) :
    ∃ scans, argcv_get ts.length command delim = some (scans, scans) ∧
      argv command scans = ts.map (copied (command.drop (trimmed command).length)) ∧
      ∀ s ∈ scans, ∃ t ∈ ts,
        copyWord command (unquote command s) = copied (command.drop (trimmed command).length) t ∧
          (unquote command s).start + t.text.length ≤ (trimmed command).length := by
  have hpos : 0 < (trimmed command).length := length_pos_iff.2 hne
  obtain ⟨scans, hcount, hextract, hargv, hall⟩ := passes_eq delim hnul (length_trim_le command)
    (char_trim_not_quote command) (by rw [take_length_trim]; exact last_trim_not_space hne) hpos
    (by rw [take_length_trim]; exact hts)
  refine ⟨scans, ?_, hargv, hall⟩
  rw [argcv_get, length_trim, if_neg (Nat.not_lt.2 hpos)]
  refine Option.map_eq_some_iff.2 ⟨scans, hcount, ?_⟩
  exact Prod.ext rfl hextract

end

/-! ### The splitter of the other modules -/

theorem copyArgs_eq_extract (len : ℕ) (command delim : List Byte) : ∀ n save : ℕ,
    copyArgs len command delim n save = (extract len command delim n save).map (unquote command)
  | 0, _ => rfl
  | n + 1, _ => congrArg (_ :: ·) (copyArgs_eq_extract len command delim n _)

theorem countArgs_eq {len : ℕ} {command delim : List Byte} : ∀ {n m save : ℕ} {scans : List Scan},
    count len command delim n save = some scans → n ≤ m →
    countArgs len command delim m save = scans.length
  | n + 1, m + 1, save, scans, h, hle => by
    rw [count] at h
    rw [countArgs]
    split_ifs at h ⊢
    · obtain ⟨s, hs, rfl⟩ := Option.map_eq_some_iff.1 h
      rw [countArgs_eq hs (Nat.le_of_succ_le_succ hle), length_cons]
    · rw [← Option.some.inj h]
      rfl

theorem argcvGet_eq {n : ℕ} {command delim : List Byte} {scans scans' : List Scan}
    (h : argcv_get n command delim = some (scans, scans'))
    (hn : n ≤ trimLen command command.length) :
    argcvGet command delim = argv command scans' := by
  rw [argcv_get] at h
  rw [argcvGet, argcvSpans]
  split_ifs at h ⊢
  · obtain ⟨-, rfl⟩ := Prod.ext_iff.1 (Option.some.inj h)
    rfl
  · obtain ⟨s, hs, heq⟩ := Option.map_eq_some_iff.1 h
    obtain ⟨-, rfl⟩ := Prod.ext_iff.1 heq
    rw [countArgs_eq hs hn, copyArgs_eq_extract, argv, map_map]
    rfl

/-- **The tokens are those of the grammar**, and lie in the trimmed command, just in case nothing
was trimmed or no token begins with a quote that has no other. -/
theorem argcv_get_iff (command : Command) (delim : List Byte) :
    Right command.1 delim ↔ trimmed command.1 = command.1 ∨ ¬ Unmatched command.1 delim := by
  obtain ⟨command, hnul, -⟩ := command
  dsimp only
  obtain ⟨ts, hts⟩ := exists_reads (signs delim) (trimmed command)
  have hunmatched : ¬ Unmatched command delim ↔ ∀ t ∈ ts, ¬ t.isUnmatched := by
    constructor
    · exact fun h t ht hun => h ⟨ts, hts, t, ht, hun⟩
    · rintro h ⟨ts', hts', t, ht, hun⟩
      obtain rfl := hts.unique hts'
      exact h t ht hun
  rw [hunmatched]
  by_cases hne : trimmed command = []
  · obtain rfl : ts = [] := hts.unique (.nil (by rw [hne]; exact nofun))
    refine iff_of_true ⟨0, [], [], ?_, hts, rfl, nofun⟩ (.inr nofun)
    rw [argcv_get, length_trim]
    exact if_pos (by rw [show trim lexis command = [] from hne]; exact one_pos)
  · obtain ⟨scans, hget, hargv, hall⟩ := argcv_get_eq hnul hne hts
    constructor
    · rintro ⟨n, scans', ts', hget', hts', hargv', -⟩
      obtain rfl := argcv_get_unique hget hget'
      obtain rfl := hts.unique hts'
      rw [hargv, map_inj_left] at hargv'
      rw [← drop_trimmed_eq_nil_iff]
      by_cases hdrop : command.drop (trimmed command).length = []
      · exact .inl hdrop
      · exact .inr fun t ht => (copied_eq_text_iff.1 (hargv' t ht)).resolve_left hdrop
    · intro hor
      rw [← drop_trimmed_eq_nil_iff] at hor
      have hcopied : ∀ t ∈ ts, copied (command.drop (trimmed command).length) t = t.text :=
        fun t ht =>
        copied_eq_text_iff.2 (hor.imp_right fun h => h t ht)
      refine ⟨_, scans, ts, hget, hts, hargv.trans (map_inj_left.2 hcopied), fun s hs => ?_⟩
      obtain ⟨t, ht, hcopy, hle⟩ := hall s hs
      rw [hcopy, hcopied t ht]
      exact hle

/-! ### A quote before white space -/

/-- `'a` with a space at its end. -/
def quoteSpace : Command := ⟨[39, 97, 32], by decide⟩

/-- **The space that was trimmed is in the token.** -/
theorem not_right_space : ¬ ∀ (command : Command) (delim : List Byte), Right command.1 delim := by
  intro h
  obtain ⟨_, _, _, hget, _, _, hlie⟩ := h quoteSpace []
  have hscans : argcv_get 1 quoteSpace.1 [] = some ([⟨0, 2, 3⟩], [⟨0, 2, 3⟩]) := by decide
  obtain rfl := argcv_get_unique hscans hget
  exact absurd (hlie _ (mem_singleton_self _)) (by decide)

end Inetutils.Libinetutils.Argcv
