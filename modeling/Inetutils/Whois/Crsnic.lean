import Inetutils.Lib.Cells
import Inetutils.Lib.Pieces
import Inetutils.Lib.Strings
import Inetutils.Whois.Whichwhois

/-! # The referral of the InterNIC

`query_crsnic` of `src/whois/whois.c`: the answer is read in pieces of at most 99 bytes, and each of
them is taken for a line. To write or to read outside of a buffer, or behind the NUL of a string, is
`none`. -/

namespace Inetutils.Whois.Crsnic

open Lib Lib.Cells Lib.Pieces Lib.Strings Whichwhois List Option

/-! ### The loop -/

/-- `"   Whois Server:"` -/
def label : Text := [32, 32, 32, 87, 104, 111, 105, 115, 32, 83, 101, 114, 118, 101, 114, 58]

/-- `for (q = ret; *p != '\n' && *p != '\r'; *q++ = *p++)`, and `*q = '\0'`. -/
def copyData : Text → ℕ → Block UInt8 → Option (Block UInt8)
  -- the NUL is copied, and the loop goes on behind it
  | [], _, _ => none
  | c :: p, q, ret =>
    if c = 10 ∨ c = 13 then write ret q 0 else (write ret q c).bind (copyData p (q + 1))

/-- The string that `ret` gets from a line. -/
def whoisServer (buf : Text) : Option Text :=
  match buf.dropWhile (· ≠ 58) with
  | [] => none
  | _ :: p =>
    let p := p.dropWhile (· = 32)
    (copyData p 0 (alloc (p.length + 1))).bind (string 0)

/-- `ret`, and what was printed. -/
structure State where
  ret : Option Text
  out : Text

def round (s : State) (piece : Text) : Option State :=
  let buf := str 0 piece
  if label <+: buf ∧ s.ret = none then (whoisServer buf).map fun ret => ⟨some ret, s.out ++ buf⟩
  else some ⟨s.ret, s.out ++ buf⟩

/-- **`query_crsnic`**, where nothing fails: what is returned and what is printed. -/
def query_crsnic (query stream : Text) : Option State :=
  (fill (alloc (query.length + 1 + 2 + 1) : Block UInt8) 0 (61 :: query ++ [13, 10, 0])).bind
    fun _ =>
    (pieces 10 99 99 stream).foldlM round ⟨none, []⟩

/-! ### What is to be returned -/

def lines (stream : Text) : List Text :=
  (Lines.cut 10 [] stream).1 ++ if (Lines.cut 10 [] stream).2 = [] then []
    else [(Lines.cut 10 [] stream).2]

/-- The text behind the colon and the spaces, up to the end of the line. -/
def text (line : Text) : Text := ((line.drop 16).dropWhile (· = 32)).takeWhile fun c =>
    c ≠ 10 ∧ c ≠ 13

def referral (stream : Text) : Option Text := ((lines stream).find? (label <+: ·)).map text

/-! ### What is returned -/

def Ended (buf : Text) : Prop := ∃ c ∈ buf, c = 10 ∨ c = 13

theorem ended_iff (buf : Text) : Ended buf ↔ 10 ∈ buf ∨ 13 ∈ buf := by
  constructor
  · rintro ⟨c, hc, rfl | rfl⟩
    · exact .inl hc
    · exact .inr hc
  · exact fun h => h.elim (fun h => ⟨10, h, .inl rfl⟩) fun h => ⟨13, h, .inr rfl⟩

instance (buf : Text) : Decidable (Ended buf) := decidable_of_iff _ (ended_iff buf).symm

theorem eq_of_mem_spaces {t : Text} {c : UInt8} (h : c ∈ t.takeWhile (· = 32)) : c = 32 := by
  have h32 := mem_takeWhile_imp h
  exact of_decide_eq_true h32

theorem label_prefix_str_iff (p : Text) : label <+: str 0 p ↔ label <+: p := by
  constructor
  · exact fun h => h.trans (List.takeWhile_prefix _)
  · rintro ⟨t, rfl⟩
    rw [str_append (by simp [label])]
    exact prefix_append _ _

theorem copyData_eq (p : Text) (q : ℕ) (ret : Block UInt8) :
    copyData p q ret =
      if Ended p then fill ret q (p.takeWhile (fun c => c ≠ 10 ∧ c ≠ 13) ++ [0]) else none := by
  induction p generalizing q ret with
  | nil => rfl
  | cons c p ih =>
    rw [copyData]
    split
    next hc =>
      have hend : Ended (c :: p) := ⟨c, mem_cons_self, hc⟩
      rw [if_pos hend, takeWhile_cons_of_neg (by simpa [← not_or] using hc), nil_append,
        fill_singleton]
    next hc =>
      have hend : Ended (c :: p) ↔ Ended p := by simp [Ended, hc]
      rw [takeWhile_cons_of_pos (by simpa [← not_or] using hc), cons_append, fill,
        if_congr hend rfl rfl]
      by_cases hp : Ended p
      · rw [if_pos hp]
        exact congrArg _ (funext fun b => (ih _ b).trans (if_pos hp))
      · have hnone : copyData p (q + 1) = fun _ => none :=
          funext fun b => (ih _ b).trans (if_neg hp)
        rw [if_neg hp, hnone, bind_fun_none]

/-- **What `ret` gets**, when the end of the line is there. -/
theorem whoisServer_eq {buf : Text} (h : label <+: buf) (h0 : (0 : UInt8) ∉ buf) :
    whoisServer buf = if Ended buf then some (text buf) else none := by
  obtain ⟨t, rfl⟩ := h
  have hdrop : (label ++ t).dropWhile (· ≠ 58) = 58 :: t := rfl
  have hend : Ended (label ++ t) ↔ Ended (t.dropWhile (· = 32)) := by
    constructor
    · rintro ⟨c, hc, hcr⟩
      rcases mem_append.1 hc with hc | hc
      · rcases hcr with rfl | rfl <;> exact absurd hc (by decide)
      · rw [← takeWhile_append_dropWhile (p := (· = 32)) (l := t), mem_append] at hc
        rcases hc with hc | hc
        · have h32 := eq_of_mem_spaces hc
          rcases hcr with rfl | rfl <;> exact absurd h32 (by decide)
        · exact ⟨c, hc, hcr⟩
    · rintro ⟨c, hc, hcr⟩
      exact ⟨c, mem_append_right _ ((dropWhile_suffix _).subset hc), hcr⟩
  have htext : text (label ++ t) = (t.dropWhile (· = 32)).takeWhile fun c => c ≠ 10 ∧ c ≠ 13 := rfl
  rw [whoisServer, hdrop, if_congr hend rfl rfl, htext]
  dsimp only
  rw [copyData_eq]
  by_cases hp : Ended (t.dropWhile (· = 32))
  · have hle :
        (List.takeWhile (fun c : UInt8 => decide (c ≠ 10 ∧ c ≠ 13)) (t.dropWhile (· = 32)) ++
          [0]).length ≤
        (t.dropWhile (· = 32)).length + 1 := by
      rw [length_append]
      exact Nat.succ_le_succ (List.takeWhile_prefix _).length_le
    have hno : (0 : UInt8) ∉ (t.dropWhile (· = 32)).takeWhile fun c => c ≠ 10 ∧ c ≠ 13 := fun hm =>
      h0 (mem_append_right _ ((dropWhile_suffix _).subset ((List.takeWhile_prefix _).subset hm)))
    rw [if_pos hp, if_pos hp, fill_alloc, if_pos hle, bind_some, map_append, append_assoc]
    exact string_append hno _
  · rw [if_neg hp, if_neg hp, bind_none]

theorem foldlM_round_of_some (ps : List Text) {s : State} (h : s.ret ≠ none) :
    (ps.foldlM round s).map State.ret = some s.ret := by
  induction ps generalizing s with
  | nil => rfl
  | cons p ps ih =>
    rw [foldlM_cons, round, if_neg fun hor => h hor.2]
    exact ih h

/-- **The loop**: the first piece with the label has the referral, or is read beyond its end. -/
theorem loop_eq (ps : List Text) {s : State} (h : s.ret = none) :
    (ps.foldlM round s).map State.ret =
      match ps.find? (label <+: ·) with
      | none => some none
      | some p => if Ended (str 0 p) then some (some (text (str 0 p))) else none := by
  induction ps generalizing s with
  | nil => exact congrArg some h
  | cons p ps ih =>
    rw [foldlM_cons, round, find?_cons]
    by_cases hp : label <+: p
    · have hstr := (label_prefix_str_iff p).2 hp
      have hno : (0 : UInt8) ∉ str 0 p := fun hm => ne_of_mem_str hm rfl
      rw [if_pos ⟨hstr, h⟩, whoisServer_eq hstr hno, decide_eq_true hp]
      dsimp only
      by_cases hend : Ended (str 0 p)
      · rw [if_pos hend, if_pos hend]
        exact foldlM_round_of_some ps (s := ⟨some (text (str 0 p)), s.out ++ str 0 p⟩)
          (some_ne_none _)
      · rw [if_neg hend, if_neg hend]
        rfl
    · rw [if_neg fun hor => hp ((label_prefix_str_iff p).1 hor.1), decide_eq_false hp]
      exact ih h

theorem query_crsnic_ret (query stream : Text) :
    (query_crsnic query stream).map State.ret =
      match (pieces 10 99 99 stream).find? (label <+: ·) with
      | none => some none
      | some p => if Ended (str 0 p) then some (some (text (str 0 p))) else none := by
  have hlen : (61 :: query ++ [13, 10, 0]).length ≤ query.length + 1 + 2 + 1 := by
    rw [length_append, length_cons]
    exact le_rfl
  rw [query_crsnic, fill_alloc, if_pos hlen]
  exact loop_eq _ rfl

/-! ### Pieces and lines -/

theorem lines_line {y : Text} (h : 10 ∉ y) (r : Text) : lines (y ++ 10 :: r) = y :: lines r := by
  rw [lines, Lines.cut_line 10 h]
  rfl

theorem lines_of_not_mem {l : Text} (h : 10 ∉ l) : lines l = if l = [] then [] else [l] := by
  rw [lines, Lines.cut_of_not_mem 10 h]
  rfl

theorem label_prefix_take_iff (y t : Text) : label <+: (y ++ 10 :: t).take 99 ↔ label <+: y := by
  constructor
  · intro hl
    have hl := hl.trans (List.take_prefix _ _)
    refine prefix_of_prefix_length_le hl (prefix_append _ _) (Nat.le_of_not_lt fun hlt => ?_)
    -- the label would have a newline
    have hpre : y ++ [10] <+: label := by
      refine prefix_of_prefix_length_le ?_ hl (by rw [length_append]; exact hlt)
      rw [append_cons y 10 t]
      exact prefix_append _ _
    have hmem : (10 : UInt8) ∈ label := hpre.subset (mem_append_right _ mem_cons_self)
    exact absurd hmem (by decide)
  · intro hl
    exact prefix_take_iff.2 ⟨hl.trans (prefix_append _ _), by decide⟩

theorem text_eq_of_ended {b l : Text} (hl : label <+: b) (h : Ended b) (hb : b <+: l) :
    text b = text l := by
  obtain ⟨u, rfl⟩ := hb
  obtain ⟨t, rfl⟩ := hl
  obtain ⟨c, hc, hcr⟩ : Ended t := by
    obtain ⟨c, hc, hcr⟩ := h
    rcases mem_append.1 hc with hc | hc
    · rcases hcr with rfl | rfl <;> exact absurd hc (by decide)
    · exact ⟨c, hc, hcr⟩
  have hc' : c ∈ t.dropWhile (· = 32) := by
    rw [← takeWhile_append_dropWhile (p := (· = 32)) (l := t), mem_append] at hc
    refine hc.resolve_left fun hc => ?_
    have h32 := eq_of_mem_spaces hc
    rcases hcr with rfl | rfl <;> exact absurd h32 (by decide)
  have hsp : (t ++ u).dropWhile (· = 32) = t.dropWhile (· = 32) ++ u := by
    rw [dropWhile_append, if_neg (by simpa using ne_nil_of_mem hc')]
  have htext : ∀ v : Text, text (label ++ v) = (v.dropWhile (· = 32)).takeWhile fun c =>
    c ≠ 10 ∧ c ≠ 13 := fun v => rfl
  rw [append_assoc, htext, htext, hsp, takeWhile_append, if_neg]
  intro hlen
  have hall := takeWhile_eq_self_iff.1 ((List.takeWhile_prefix _).eq_of_length hlen) c hc'
  rcases hcr with rfl | rfl <;> exact absurd hall (by decide)

theorem text_newline {y : Text} (hl : label <+: y) : text (y ++ [10]) = text y := by
  have hcut : ∀ v : Text, (v ++ [10]).takeWhile (fun c => c ≠ 10 ∧ c ≠ 13) = v.takeWhile fun c =>
    c ≠ 10 ∧ c ≠ 13 := by
    intro v
    rw [takeWhile_append]
    split
    next h => rw [(List.takeWhile_prefix _).eq_of_length h]; exact append_nil v
    next => rfl
  obtain ⟨t, rfl⟩ := hl
  have htext : ∀ v : Text, text (label ++ v) = (v.dropWhile (· = 32)).takeWhile fun c =>
    c ≠ 10 ∧ c ≠ 13 := fun v => rfl
  rw [append_assoc, htext, htext, dropWhile_append]
  split
  next hnil =>
    rw [isEmpty_iff.1 hnil]
    rfl
  next => exact hcut _

/-! ### When the piece is that of the line -/

def Heads (ps : List Text) : Prop := ∀ q, ps.getLast? = some q → 10 ∈ q

theorem referral_eq_none {stream : Text} (h : ∀ p ∈ pieces 10 99 99 stream, ¬ label <+: p) :
    referral stream = none := by
  rw [referral, map_eq_none_iff]
  induction stream using Lines.line_induction (10 : UInt8) with
  | last l hl =>
    rw [lines_of_not_mem hl]
    split
    next => rfl
    next hne =>
      have hmem := mem_of_mem_head? (head?_pieces 10 (m := 99) (by decide) hl hne)
      have hno : ¬ label <+: l := fun hlab => h _ hmem (prefix_take_iff.2 ⟨hlab, by decide⟩)
      rw [find?_cons, decide_eq_false hno]
      rfl
  | line y r hy ih =>
    obtain ⟨init, last, hpieces, -, hhead⟩ := pieces_line 10 (m := 99) (by decide) hy r
    rw [hpieces, append_cons] at h
    have hno : ¬ label <+: y := fun hlab =>
      h _ (mem_append_left _ (mem_of_mem_head? hhead)) ((label_prefix_take_iff y []).2 hlab)
    rw [lines_line hy, find?_cons, decide_eq_false hno]
    exact ih fun p hp => h p (mem_append_right _ hp)

theorem referral_of_heads {stream p : Text} {ps₁ ps₂ : List Text}
    (h : pieces 10 99 99 stream = ps₁ ++ p :: ps₂)
    (hno : ∀ q ∈ ps₁, ¬ label <+: q) (hp : label <+: p) (hheads : Heads ps₁)
    (hend : Ended (str 0 p)) :
    referral stream = some (text (str 0 p)) := by
  have hstr : label <+: str 0 p := (label_prefix_str_iff p).2 hp
  have htext : ∀ l : Text, p <+: l → text l = text (str 0 p) := fun l hl =>
    (text_eq_of_ended hstr hend ((List.takeWhile_prefix _).trans hl)).symm
  induction stream using Lines.line_induction (10 : UInt8) generalizing ps₁ with
  | last l hl =>
    have hnil : ps₁ = [] := by
      by_contra hne
      obtain ⟨q, hq⟩ := ne_none_iff_exists'.1 (mt getLast?_eq_none_iff.1 hne)
      refine not_mem_pieces 10 (m := 99) hl 99 ?_ (hheads q hq)
      rw [h]
      exact mem_append_left _ (mem_of_getLast? hq)
    subst hnil
    have hne : l ≠ [] := by
      rintro rfl
      exact cons_ne_nil p ps₂ h.symm
    have hhead := head?_pieces 10 (m := 99) (by decide) hl hne
    rw [h] at hhead
    obtain rfl : p = l.take 99 := some.inj hhead
    have hlab : label <+: l := hp.trans (List.take_prefix _ _)
    rw [referral, lines_of_not_mem hl, if_neg hne, find?_cons, decide_eq_true hlab]
    exact congrArg some (htext l (List.take_prefix _ _))
  | line y r hy ih =>
    obtain ⟨init, last, hpieces, hinit, hhead⟩ := pieces_line 10 (m := 99) (by decide) hy r
    by_cases hlab : label <+: y
    · -- the line begins with the first piece with the label
      have hfirst : (ps₁ ++ p :: ps₂).head? = some ((y ++ [10]).take 99) := by
        rw [← h, hpieces, append_cons, head?_append, hhead]
        rfl
      have hhd : label <+: (y ++ [10]).take 99 := (label_prefix_take_iff y []).2 hlab
      have hp' : p = (y ++ [10]).take 99 := by
        rcases ps₁ with - | ⟨q, ps₁⟩
        · exact some.inj hfirst
        · exact absurd (some.inj hfirst ▸ hhd) (hno q mem_cons_self)
      rw [referral, lines_line hy, find?_cons, decide_eq_true hlab]
      exact congrArg some ((text_newline hlab).symm.trans (htext _ (hp' ▸ List.take_prefix _ _)))
    · have hnot : ¬ label <+: (y ++ [10]).take 99 :=
        fun hl => hlab ((label_prefix_take_iff y []).1 hl)
      rw [referral, lines_line hy, find?_cons, decide_eq_false hlab]
      rw [hpieces] at h
      -- a piece inside of the line has no newline in front of it
      have hcases :
          ∃ ps₁', ps₁ = init ++ (last ++ [10]) :: ps₁' ∧ pieces 10 99 99 r = ps₁' ++ p :: ps₂ := by
        have hhd : ps₁ ≠ [] := by
          rintro rfl
          have hf : (init ++ [last ++ [10]]).head? = some p := by
            have := congrArg List.head? h
            rw [append_cons, head?_append, hhead] at this
            exact hhead.trans this
          exact hnot (some.inj (hhead.symm.trans hf) ▸ hp)
        obtain ⟨q, hq⟩ := ne_none_iff_exists'.1 (mt getLast?_eq_none_iff.1 hhd)
        have hqn := hheads q hq
        rcases append_eq_append_iff.1 h with ⟨as, has, hrest⟩ | ⟨bs, hbs, -⟩
        · rcases as with - | ⟨a, as⟩
          · rw [append_nil] at has
            exact absurd hqn (hinit q (has ▸ mem_of_getLast? hq))
          · obtain ⟨rfl, htail⟩ := List.cons.inj hrest
            exact ⟨as, has, htail⟩
        · refine absurd hqn (hinit q ?_)
          rw [hbs]
          exact mem_append_left _ (mem_of_getLast? hq)
      obtain ⟨ps₁', rfl, hr⟩ := hcases
      refine ih hr (fun q hq => hno q (mem_append_right _ (mem_cons_of_mem _ hq))) fun q hq => ?_
      refine hheads q ?_
      rw [getLast?_append, getLast?_cons, hq]
      rfl

/-! ### When the referral is right -/

/-- The first piece with the label has the end of its line, before any NUL, and is the beginning of
a line, or the first line with the label has the same text. -/
def Referred (stream : Text) : Prop :=
  ∀ ps₁ p ps₂, pieces 10 99 99 stream = ps₁ ++ p :: ps₂ → (∀ q ∈ ps₁, ¬ label <+: q) → label <+: p →
    Ended (str 0 p) ∧ (Heads ps₁ ∨ referral stream = some (text (str 0 p)))

theorem query_crsnic_iff (query stream : Text) :
    (query_crsnic query stream).map State.ret = some (referral stream) ↔ Referred stream := by
  rw [query_crsnic_ret]
  rcases hfind : (pieces 10 99 99 stream).find? (label <+: ·) with - | p
  · have hno : ∀ p ∈ pieces 10 99 99 stream, ¬ label <+: p := by simpa using hfind
    refine iff_of_true (congrArg some (referral_eq_none hno).symm) fun ps₁ p ps₂ h _ hp => ?_
    exact absurd hp (hno p (by rw [h]; exact mem_append_right _ mem_cons_self))
  · obtain ⟨hp, ps₁, ps₂, hps, hno⟩ := find?_eq_some_iff_append.1 hfind
    have hp := of_decide_eq_true hp
    have hno : ∀ q ∈ ps₁, ¬ label <+: q := by simpa using hno
    -- the first piece with the label is this one
    have hone : ∀ ps₁' p' ps₂', pieces 10 99 99 stream = ps₁' ++ p' :: ps₂' →
      (∀ q ∈ ps₁', ¬ label <+: q) →
        label <+: p' → ps₁' = ps₁ ∧ p' = p := by
      intro ps₁' p' ps₂' h hno' hp'
      rw [hps] at h
      rcases append_eq_append_iff.1 h with ⟨as, has, hrest⟩ | ⟨bs, hbs, hrest⟩
      · rcases as with - | ⟨a, as⟩
        · exact ⟨has.trans (append_nil _), ((List.cons.inj hrest).1).symm⟩
        · obtain rfl := (List.cons.inj hrest).1
          exact absurd hp (hno' p (by rw [has]; exact mem_append_right _ mem_cons_self))
      · rcases bs with - | ⟨b, bs⟩
        · exact ⟨(hbs.trans (append_nil _)).symm, (List.cons.inj hrest).1⟩
        · obtain rfl := (List.cons.inj hrest).1
          exact absurd hp' (hno p' (by rw [hbs]; exact mem_append_right _ mem_cons_self))
    have hiff : Referred stream ↔
      Ended (str 0 p) ∧ (Heads ps₁ ∨ referral stream = some (text (str 0 p))) := by
      refine ⟨fun h => h ps₁ p ps₂ hps hno hp, fun h ps₁' p' ps₂' h' hno' hp' => ?_⟩
      obtain ⟨rfl, rfl⟩ := hone ps₁' p' ps₂' h' hno' hp'
      exact h
    rw [hiff]
    dsimp only
    by_cases hend : Ended (str 0 p)
    · rw [if_pos hend, some.injEq, eq_comm, and_iff_right hend]
      exact (or_iff_right_of_imp fun hheads => referral_of_heads hps hno hp hheads hend).symm
    · rw [if_neg hend]
      exact iff_of_false (some_ne_none _).symm fun h => hend h.1

/-- **When nothing outside is read, and the referral is right.** -/
theorem whois_iff (t : Tables) (query : CString) (stream : Text) :
    ((∃ server, whichwhois t query.1 = some server) ∧
      (∀ tld : CString, ∃ b, domcmp query.1 tld.1 = some b) ∧
        (query_crsnic query.1 stream).map State.ret = some (referral stream)) ↔
      (query.1.length = 1 → 58 ∈ query.1 ∨ 64 ∈ query.1 ∨ 46 ∈ query.1 ∨ 45 ∈ query.1) ∧
      Referred stream := by
  rw [← isSome_iff_exists, whichwhois_isSome_iff, query_crsnic_iff]
  have hdom : ∀ tld : CString, ∃ b, domcmp query.1 tld.1 = some b := fun tld =>
    (domcmp_eq query.1 tld.1).imp fun _ h => h.1
  rw [and_iff_right hdom]

/-- A line that the end of the stream cuts. -/
theorem not_reads_cut : ¬ ∀ (query : CString) (stream : Text),
    (query_crsnic query.1 stream).map State.ret = some (referral stream) := by
  intro h
  have hcut : (query_crsnic [97, 46, 99, 111, 109] (label ++ [32, 120])).map State.ret = none := rfl
  have hret := h ⟨[97, 46, 99, 111, 109], by decide⟩ (label ++ [32, 120])
  exact some_ne_none _ (hret.symm.trans hcut)

end Inetutils.Whois.Crsnic
