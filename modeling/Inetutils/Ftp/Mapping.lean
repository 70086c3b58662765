import Inetutils.Ftp.Nmap

/-! # The mapped name

`domap` copies `mapout` into a buffer that has the length of the name, and two bytes less than a
value needs for each long one. Where it reads the brackets right, it writes the pieces of the name
that is meant (`copyLoop_eq`), and these fit or do not (`writes_some`, `writes_none`).

* `not_maps_literal`: a sequence in brackets that is a literal. -/

namespace Inetutils.Ftp.Mapping

open Lib Lib.Cells Domap Nmap List Option

variable {seqs : List (List Elem)} {parts : List Part}

/-! ### What is written -/

section

variable (moves : ℕ → Bool)

def put : Piece → Out → Option Out
  | .lit c, o => puts [c] o
  | .value s, o => subst moves s o

def writes : List Piece → Out → Option Out
  | [], o => some o
  | p :: ps, o => (put moves p o).bind (writes ps)

theorem writes_append (ps qs : List Piece) (o : Out) :
    writes moves (ps ++ qs) o = (writes moves ps o).bind (writes moves qs) := by
  induction ps generalizing o with
  | nil => rfl
  | cons p ps ih =>
    rw [cons_append, writes, writes, bind_assoc]
    exact congrArg _ (funext ih)

theorem writes_singleton (p : Piece) (o : Out) : writes moves [p] o = put moves p o :=
  bind_fun_some _

end

/-- The buffer begins with the text, and has room for `room` bytes more. -/
structure Holds (o : Out) (done : Text) (room : ℕ) : Prop where
  buf : ∃ r : Block Byte, o.buf = done.map some ++ r ∧ r.length = room
  pos : o.pos = done.length

theorem Holds.length {o : Out} {done : Text} {room : ℕ} (h : Holds o done room) :
    o.buf.length = done.length + room := by
  obtain ⟨r, hr, hlen⟩ := h.buf
  rw [hr, length_append, length_map, hlen]

theorem puts_some {o : Out} {done s : Text} {room : ℕ} (h : Holds o done room)
    (hs : s.length ≤ room) :
    ∃ o', puts s o = some o' ∧ Holds o' (done ++ s) (room - s.length) := by
  obtain ⟨r, hr, hlen⟩ := h.buf
  have hle : o.pos ≤ o.buf.length := by
    rw [h.pos, h.length]
    exact Nat.le_add_right _ _
  have hfits : o.pos + s.length ≤ o.buf.length := by
    rw [h.pos, h.length]
    omega
  have htake : o.buf.take o.pos = done.map some := by
    rw [hr, h.pos]
    exact take_left' (length_map _)
  refine ⟨_, by rw [puts, fill_eq hle, if_pos hfits]; rfl,
    ⟨o.buf.drop (o.pos + s.length), ?_, ?_⟩, ?_⟩
  · rw [htake, map_append]
  · rw [length_drop, h.pos, h.length]
    omega
  · rw [length_append, h.pos]

theorem puts_none {o : Out} {done s : Text} {room : ℕ} (h : Holds o done room)
    (hs : room < s.length) :
    puts s o = none := by
  have hle : o.pos ≤ o.buf.length := by
    rw [h.pos, h.length]
    exact Nat.le_add_right _ _
  have hfits : ¬ o.pos + s.length ≤ o.buf.length := by
    rw [h.pos, h.length]
    omega
  rw [puts, fill_eq hle, if_neg hfits]
  rfl

theorem Holds.realloc {o : Out} {done : Text} {room : ℕ} (h : Holds o done room) (n : ℕ) :
    Holds { o with buf := realloc o.buf (o.buf.length + n) } done (room + n) := by
  obtain ⟨r, hr, hlen⟩ := h.buf
  refine ⟨⟨r ++ List.replicate n none, ?_, ?_⟩, h.pos⟩
  · rw [Cells.realloc, take_of_length_le (Nat.le_add_right _ _), Nat.add_sub_cancel_left, hr,
      append_assoc]
  · rw [length_append, hlen, length_replicate]

section

variable {moves : ℕ → Bool} {o : Out} {done : Text} {room : ℕ}

/-- **One piece**: what it takes of the room is its cost. -/
theorem put_some {p : Piece} (h : Holds o done room) (hcost : p.cost ≤ room)
    (hstays : p.Stays moves (done.length + room)) :
    ∃ o', put moves p o = some o' ∧ Holds o' (done ++ p.text) (room - p.cost) := by
  cases p with
  | lit c => exact puts_some h hcost
  | value s =>
    rw [put, subst]
    by_cases hs : 2 < s.length
    · have hmin : min s.length 2 = 2 := min_eq_right hs.le
      have hlong := hstays hs
      rw [← h.length] at hlong
      rw [Piece.cost, hmin] at hcost
      rw [if_pos hs, hlong, Piece.cost, hmin]
      obtain ⟨o', ho', hholds⟩ := puts_some (h.realloc (s.length - 2)) (s := s) (by omega)
      refine ⟨o', ho', ?_⟩
      have hroom : room + (s.length - 2) - s.length = room - 2 := by omega
      rwa [hroom] at hholds
    · have hmin : min s.length 2 = s.length := min_eq_left (Nat.not_lt.1 hs)
      rw [Piece.cost, hmin] at hcost
      rw [if_neg hs, Piece.cost, hmin]
      exact puts_some h hcost

theorem put_none {p : Piece} (h : Holds o done room)
    (hbad : p.cost ≤ room → ¬ p.Stays moves (done.length + room)) :
    put moves p o = none := by
  cases p with
  | lit c =>
    refine puts_none h (Nat.lt_of_not_le fun hle => hbad hle trivial)
  | value s =>
    rw [put, subst]
    by_cases hs : 2 < s.length
    · have hmin : min s.length 2 = 2 := Nat.min_eq_right hs.le
      rw [Piece.cost, hmin] at hbad
      split_ifs with hmoves
      · rfl
      · refine puts_none (h.realloc (s.length - 2)) ?_
        have hroom : ¬ 2 ≤ room := by
          intro hle
          refine hbad hle fun _ => ?_
          rw [← h.length]
          exact Bool.eq_false_iff.2 hmoves
        omega
    · have hmin : min s.length 2 = s.length := Nat.min_eq_left (Nat.not_lt.1 hs)
      rw [Piece.cost, hmin] at hbad
      rw [if_neg hs]
      exact puts_none h (Nat.lt_of_not_le fun hle => hbad hle fun hlong => absurd hlong hs)

theorem pieceCost_le (p : Piece) : p.cost ≤ p.text.length := by
  cases p with
  | lit c => exact Nat.le_refl 1
  | value s => exact min_le_left _ _

theorem cost_le (ps : List Piece) : cost ps ≤ (ps.flatMap Piece.text).length := by
  induction ps with
  | nil => exact Nat.le_refl 0
  | cons p ps ih =>
    rw [cost, map_cons, sum_cons, flatMap_cons, length_append]
    exact Nat.add_le_add (pieceCost_le p) ih

theorem size_put (p : Piece) {done : Text} {room : ℕ} (hcost : p.cost ≤ room) :
    (done ++ p.text).length + (room - p.cost) = done.length + room + (p.text.length - p.cost) := by
  have hle := pieceCost_le p
  rw [length_append]
  omega

/-- **All the pieces.** -/
theorem writes_some {ps : List Piece} (h : Holds o done room) (hcost : cost ps ≤ room)
    (hstays : Stays moves (done.length + room) ps) :
    ∃ o', writes moves ps o = some o' ∧
    Holds o' (done ++ ps.flatMap Piece.text) (room - cost ps) := by
  induction ps generalizing o done room with
  | nil => exact ⟨o, rfl, by rwa [flatMap_nil, append_nil]⟩
  | cons p ps ih =>
    rw [cost, map_cons, sum_cons, ← cost] at hcost ⊢
    have hp : p.cost ≤ room := Nat.le_trans (Nat.le_add_right _ _) hcost
    obtain ⟨o', ho', hholds⟩ := put_some h hp hstays.1
    obtain ⟨o'', ho'', hholds'⟩ := ih hholds (by omega) (by rw [size_put p hp]; exact hstays.2)
    refine ⟨o'', ?_, ?_⟩
    · rw [writes, ho', bind_some, ho'']
    · rwa [append_assoc, Nat.sub_sub] at hholds'

theorem writes_none {ps : List Piece} (h : Holds o done room)
    (hbad : cost ps ≤ room → ¬ Stays moves (done.length + room) ps) : writes moves ps o = none := by
  induction ps generalizing o done room with
  | nil => exact absurd trivial (hbad (Nat.zero_le _))
  | cons p ps ih =>
    rw [cost, map_cons, sum_cons, ← cost] at hbad
    rw [writes]
    by_cases hp : p.cost ≤ room ∧ p.Stays moves (done.length + room)
    · obtain ⟨o', ho', hholds⟩ := put_some h hp.1 hp.2
      rw [ho', bind_some]
      refine ih hholds fun hle hst => hbad (by omega) ⟨hp.2, ?_⟩
      rwa [size_put p hp.1] at hst
    · rw [put_none h fun hle hst => hp ⟨hle, hst⟩]
      rfl

end

/-! ### Brackets -/

section

variable (moves : ℕ → Bool) (toks : Toks) (name : Text)

def closedAt (cp2 : Text) : Option Out → Closed
  | none => .undefined
  | some o => .closed cp2 o

/-- **`cp_subst`** writes the value of the variable. -/
theorem cpSubst_eq (d : Byte) (o : Out) :
    (cpSubst moves toks name d o).map Prod.snd =
    writes moves ((Elem.var d).pieces toks name) o := by
  rw [cpSubst, Elem.pieces]
  rcases source toks name d with - | src
  · rfl
  · dsimp only
    rw [getD_some, Option.map_map]
    split_ifs with hsrc
    · rw [hsrc]
      rfl
    · rw [writes_singleton, put]
      exact map_id'

theorem isdigit_ne {d : Byte} (h : isdigit d = true) : d ≠ 93 ∧ d ≠ 92 := by
  constructor <;>
  · rintro rfl
    cases h

theorem skip_eq {t rest : Text} (o : Out) (h : Reads t seqs rest) :
    skip o t = .closed rest o := by
  induction h with
  | close t =>
    rw [skip.eq_def]
    rfl
  | comma h ih =>
    rw [skip_of_ne (by decide) (by decide)]
    exact ih
  | quoted d h ih =>
    rw [skip.eq_def]
    exact ih
  | var hd h ih =>
    obtain ⟨h93, h92⟩ := isdigit_ne hd
    rw [skip_of_ne (by decide) (by decide), skip_of_ne h93 h92]
    exact ih
  | char h93 h44 h92 h36 h ih =>
    rw [skip_of_ne h93 h92]
    exact ih

theorem literal_eq {c : Byte} {t rest : Text} (o : Out) (hc : c = 44 ∨ c = 93)
    (h : Reads (c :: t) seqs rest) : literal moves toks name o (c :: t) = .closed rest o := by
  rw [literal.eq_def]
  dsimp only
  rw [if_pos hc]
  exact skip_eq o h

theorem leading_nil (qs : List (List Elem)) : leading ([] :: qs) = [] :=
  takeWhile_cons_of_neg (by simp)

theorem leading_cons (e : Elem) (q : List Elem) (qs : List (List Elem)) :
    leading ((e :: q) :: qs) = (e :: q) :: leading qs := takeWhile_cons_of_pos (by simp)

theorem leadingPieces_cons (e : Elem) (q : List Elem) (qs : List (List Elem)) :
    leadingPieces toks name ((e :: q) :: qs) =
      e.pieces toks name ++ (seqPieces toks name q ++ leadingPieces toks name qs) := by
  rw [leadingPieces, leading_cons, flatMap_cons, seqPieces, flatMap_cons, append_assoc]
  rfl

theorem writes_var {d : Byte} {o o' : Out} {b : Bool}
    (h : cpSubst moves toks name d o = some (b, o')) (ps : List Piece) :
    writes moves ((Elem.var d).pieces toks name ++ ps) o = writes moves ps o' := by
  rw [writes_append, ← cpSubst_eq, h]
  rfl

/-- **Brackets** in which the leading sequences have variables only. -/
theorem alternatives_eq {t rest : Text} (o : Out) (h : Reads t seqs rest) (hvars : Vars seqs) :
    alternatives moves toks name o t =
    closedAt rest (writes moves (leadingPieces toks name seqs) o) := by
  fun_induction alternatives moves toks name o t generalizing seqs rest with
  | case1 o => cases h
  | case2 o c =>
    obtain ⟨hc, qs, rfl⟩ | ⟨-, e, q, qs, rfl, he⟩ := h.start
    · rw [literal_eq moves toks name o hc h, leadingPieces, leading_nil]
      rfl
    · rw [Vars, leading_cons] at hvars
      have hvar := hvars _ mem_cons_self e mem_cons_self
      exact absurd (he hvar).2 Bool.false_ne_true
  | case3 o c d t hc hsubst =>
    obtain ⟨q, qs, -, rfl⟩ := h.of_var hc
    have hnone : writes moves ((Elem.var d).pieces toks name) o = none := by
      rw [← cpSubst_eq, hsubst]
      rfl
    rw [leadingPieces_cons, writes_append, hnone]
    rfl
  | case4 o c d hc b o' hsubst ih =>
    obtain ⟨q, qs, hnil, -⟩ := h.of_var hc
    cases hnil
  | case5 o c d hc b o' hsubst t ih =>
    obtain ⟨q, qs, hcomma, rfl⟩ := h.of_var hc
    obtain ⟨qs', hr, heq⟩ := hcomma.of_comma
    obtain ⟨rfl, rfl⟩ := List.cons.inj heq
    rw [Vars, leading_cons] at hvars
    rw [leadingPieces_cons, writes_var moves toks name hsubst]
    exact ih hr fun q hq => hvars q (mem_cons_of_mem _ hq)
  | case6 o c d hc b o' hsubst t h44 =>
    obtain ⟨q, qs, hclose, rfl⟩ := h.of_var hc
    obtain ⟨hnil, rfl⟩ := hclose.of_close
    cases hnil
    rw [leadingPieces_cons, writes_var moves toks name hsubst]
    rfl
  | case7 o c d hc b o' hsubst e t h44 h93 ih =>
    obtain ⟨q, qs, hr, rfl⟩ := h.of_var hc
    obtain ⟨hstart, -⟩ | ⟨-, e', q', qs', heq, -⟩ := hr.start
    · exact absurd hstart (not_or.2 ⟨h44, h93⟩)
    · obtain ⟨rfl, rfl⟩ := List.cons.inj heq
      rw [Vars, leading_cons] at hvars
      rw [leadingPieces_cons, writes_var moves toks name hsubst]
      refine ih hr fun q hq => ?_
      rw [leading_cons] at hq
      rcases mem_cons.1 hq with rfl | hq
      · exact fun e he => hvars _ mem_cons_self e (mem_cons_of_mem _ he)
      · exact hvars q (mem_cons_of_mem _ hq)
  | case8 o c d t hc =>
    obtain ⟨hc', qs, rfl⟩ | ⟨-, e, q, qs, rfl, he⟩ := h.start
    · rw [literal_eq moves toks name o hc' h, leadingPieces, leading_nil]
      rfl
    · rw [Vars, leading_cons] at hvars
      have hvar := hvars _ mem_cons_self e mem_cons_self
      exact absurd (he hvar) hc

/-- **One sequence at most has a value**: what is written is the first that is not a null string. -/
theorem leadingPieces_eq (h : Sole toks name seqs) :
    leadingPieces toks name seqs = (Part.bracket seqs).pieces toks name := by
  have hflat : ∀ l : List (List Piece), l.flatten = (l.filter (· ≠ [])).flatten := fun l => by
    induction l with
    | nil => rfl
    | cons x l ih =>
      rw [flatten_cons, filter_cons]
      split_ifs with hx
      · rw [flatten_cons, ih]
      · rw [ih, show x = [] by simpa using hx, nil_append]
  have hsplit : seqs = leading seqs ++ seqs.dropWhile (· ≠ []) := takeWhile_append_dropWhile.symm
  have hfind : ((leading seqs).map (seqPieces toks name)).find? (· ≠ []) =
      (((leading seqs).map (seqPieces toks name)).filter (· ≠ [])).head? := (head?_filter ..).symm
  rw [leadingPieces, flatMap_def, hflat, Part.pieces]
  rcases hl : ((leading seqs).map (seqPieces toks name)).filter (· ≠ []) with - | ⟨x, l⟩
  · have hnull : ∀ q ∈ leading seqs, seqPieces toks name q = [] := fun q hq => by
      have hmem := filter_eq_nil_iff.1 hl (seqPieces toks name q) (mem_map_of_mem hq)
      simpa using hmem
    have hnone : (seqs.map (seqPieces toks name)).find? (· ≠ []) = none := by
      refine find?_eq_none.2 fun y hy => ?_
      obtain ⟨q, hq, rfl⟩ := mem_map.1 hy
      simpa using h.others hnull q hq
    rw [hnone]
    rfl
  · have hone := h.one
    rw [hl, length_cons] at hone
    have hnil : l = [] := length_eq_zero_iff.1 (by omega)
    rw [hl, hnil, head?_cons] at hfind
    have hsome : (seqs.map (seqPieces toks name)).find? (· ≠ []) = some x := by
      rw [hsplit, map_append, find?_append, hfind]
      rfl
    rw [hsome, hnil, flatten_singleton]
    rfl

def copiedAt : Option Out → Copied
  | none => .undefined
  | some o => .copied o

theorem written_cons (p : Part) (parts : List Part) :
    written toks name (p :: parts) = p.written toks name ++ written toks name parts := flatMap_cons

theorem copied_step (r : Option Out) {f : Out → Copied} {ps : List Piece} (hf : ∀ o, f o =
    copiedAt (writes moves ps o)) :
    (match r with
      | none => .undefined
      | some o => f o) = copiedAt (r.bind (writes moves ps)) := by
  cases r with
  | none => rfl
  | some o => exact hf o

/-- **The copying** writes the pieces of the name. -/
theorem copyLoop_eq {mapout : Text} (o : Out) (h : template mapout = some parts)
    (hvars : ∀ seqs, .bracket seqs ∈ parts → Vars seqs) :
    copyLoop moves toks name mapout o = copiedAt (writes moves (written toks name parts) o) := by
  fun_induction template mapout generalizing parts o with
  | case1 =>
    cases h
    rw [copyLoop]
    rfl
  | case2 =>
    cases h
    rw [copyLoop]
    rfl
  | case3 d t ih =>
    obtain ⟨parts, hparts, rfl⟩ := map_eq_some_iff.1 h
    have hrest := fun o => ih o hparts fun seqs hseqs => hvars seqs (mem_cons_of_mem _ hseqs)
    rw [copyLoop, if_pos rfl, written_cons, writes_append, Part.written, Elem.pieces,
      writes_singleton]
    exact copied_step moves _ hrest
  | case4 t hnone => cases h
  | case5 t seqs rest hseqs hne ih =>
    obtain ⟨parts, hparts, rfl⟩ := map_eq_some_iff.1 h
    have hrest := fun o => ih o hparts fun seqs hseqs => hvars seqs (mem_cons_of_mem _ hseqs)
    have halt := alternatives_eq moves toks name o (reads_of hseqs) (hvars seqs mem_cons_self)
    rw [copyLoop.eq_def]
    dsimp only
    rw [if_neg hne, if_pos rfl, written_cons, writes_append, Part.written]
    rcases hw : writes moves (leadingPieces toks name seqs) o with - | o'
    · rw [hw] at halt
      split <;> rename_i h' <;> rw [halt] at h' <;> cases h'
      rfl
    · rw [hw] at halt
      split <;> rename_i h' <;> rw [halt] at h' <;> cases h'
      exact hrest o'
  | case6 c h92 h91 hdigit =>
    exact absurd hdigit.2 Bool.false_ne_true
  | case7 c h92 h91 d t hdigit ih =>
    obtain ⟨parts, hparts, rfl⟩ := map_eq_some_iff.1 h
    have hrest := fun o => ih o hparts fun seqs hseqs => hvars seqs (mem_cons_of_mem _ hseqs)
    rw [copyLoop, if_neg h92, if_neg h91, if_pos hdigit, written_cons, writes_append, Part.written,
      ← cpSubst_eq]
    rcases cpSubst moves toks name d o with - | ⟨b, o'⟩
    · rfl
    · exact hrest o'
  | case8 c t h92 h91 hdigit ih =>
    obtain ⟨parts, hparts, rfl⟩ := map_eq_some_iff.1 h
    have hrest := fun o => ih o hparts fun seqs hseqs => hvars seqs (mem_cons_of_mem _ hseqs)
    rw [copyLoop.eq_def]
    dsimp only
    rw [if_neg h92, if_neg h91, if_neg hdigit, written_cons, writes_append, Part.written,
      Elem.pieces, writes_singleton]
    exact copied_step moves _ hrest

end

/-! ### No NUL -/

theorem bindings_subset (p : List Item) (n : Text) : ∀ b ∈ (bindings p n).1, b.2 ⊆ n := by
  induction p generalizing n with
  | nil => exact fun _ h => absurd h not_mem_nil
  | cons i p ih =>
    rcases n with - | ⟨c, n⟩
    · exact fun _ h => absurd h not_mem_nil
    · cases i with
      | lit d =>
        rw [bindings]
        split_ifs
        · exact fun b hb => subset_cons_of_subset c (ih n b hb)
        · exact fun _ h => absurd h not_mem_nil
      | never => exact fun _ h => absurd h not_mem_nil
      | var k =>
        intro b hb
        rcases mem_cons.1 hb with rfl | hb
        · exact (List.takeWhile_prefix _).subset
        · exact List.Subset.trans (ih _ b hb) (dropWhile_suffix _).subset

def Within (toks : Toks) (name : Text) : Prop := ∀ k s, toks k = some s → s ⊆ name

theorem Within.update {toks : Toks} {name : Text} (h : Within toks name) (k : ℕ) {v : Option Text}
    (hv : ∀ s, v = some s → s ⊆ name) : Within (Function.update toks k v) name := by
  intro i s hs
  rw [Function.update_apply] at hs
  split_ifs at hs
  · exact hv s hs
  · exact h i s hs

theorem within_values (mapin name : Text) : Within (values mapin name) name := by
  have hfold : ∀ (bs : List (ℕ × Text)) (s : Toks × ℕ), (∀ b ∈ bs, b.2 ⊆ name) → Within s.1 name →
      Within (bs.foldl assign s).1 name := by
    intro bs
    induction bs with
    | nil => exact fun _ _ h => h
    | cons b bs ih =>
      intro s hbs h
      refine ih _ (fun b' hb' => hbs b' (mem_cons_of_mem _ hb')) ?_
      unfold assign
      split_ifs
      · exact h
      · exact h.update b.1 fun s hs => some.inj hs ▸ hbs b mem_cons_self
  have hall := hfold (bindings (pattern mapin) name).1 (fun _ => none, 0) (bindings_subset _ _)
    fun _ _ h => absurd h.symm (some_ne_none _)
  unfold values settle
  dsimp only
  split_ifs
  · exact hall
  · exact hall.update _ fun _ h => absurd h.symm (some_ne_none _)

def Part.NoNul : Part → Prop
  | .elem e => e ≠ .lit 0
  | .bracket seqs => ∀ q ∈ seqs, .lit 0 ∉ q

theorem template_nul {mapout : Text} (h : template mapout = some parts) (h0 : 0 ∉ mapout) :
    ∀ p ∈ parts, Part.NoNul p := by
  fun_induction template mapout generalizing parts with
  | case1 =>
    cases h
    exact fun _ h => absurd h not_mem_nil
  | case2 =>
    cases h
    exact fun _ h => absurd h not_mem_nil
  | case3 d t ih =>
    obtain ⟨parts, hparts, rfl⟩ := map_eq_some_iff.1 h
    refine forall_mem_cons.2 ⟨fun hd => h0 ?_, ih hparts fun hm =>
      h0 (mem_cons_of_mem _ (mem_cons_of_mem _ hm))⟩
    cases hd
    exact mem_cons_of_mem _ mem_cons_self
  | case4 t hnone => cases h
  | case5 t seqs rest hseqs hne ih =>
    obtain ⟨parts, hparts, rfl⟩ := map_eq_some_iff.1 h
    obtain ⟨hnul, hrest⟩ := (reads_of hseqs).noNul fun hm => h0 (mem_cons_of_mem _ hm)
    exact forall_mem_cons.2 ⟨hnul, ih hparts hrest⟩
  | case6 c h92 h91 hdigit => exact absurd hdigit.2 Bool.false_ne_true
  | case7 c h92 h91 d t hdigit ih =>
    obtain ⟨parts, hparts, rfl⟩ := map_eq_some_iff.1 h
    refine forall_mem_cons.2 ⟨?_, ih hparts fun hm => h0 (mem_cons_of_mem _ (mem_cons_of_mem _ hm))⟩
    rintro ⟨⟩
  | case8 c t h92 h91 hdigit ih =>
    obtain ⟨parts, hparts, rfl⟩ := map_eq_some_iff.1 h
    refine forall_mem_cons.2 ⟨fun hd => h0 ?_, ih hparts fun hm => h0 (mem_cons_of_mem _ hm)⟩
    cases hd
    exact mem_cons_self

section

variable {toks : Toks} {name : Text}

theorem elemPieces_nul {e : Elem} (he : e ≠ .lit 0) (h : Within toks name) (h0 : 0 ∉ name) :
    ∀ p ∈ e.pieces toks name, 0 ∉ p.text := by
  intro p hp
  cases e with
  | lit c =>
    obtain rfl := mem_singleton.1 hp
    intro hm
    exact he (congrArg Elem.lit (mem_singleton.1 hm).symm)
  | var d =>
    rw [Elem.pieces] at hp
    split_ifs at hp with hnull
    · exact absurd hp not_mem_nil
    · obtain rfl := mem_singleton.1 hp
      rcases hs : source toks name d with - | s
      · rw [hs] at hnull
        exact absurd rfl hnull
      · have hsub : s ⊆ name := by
          unfold source at hs
          split_ifs at hs
          · exact some.inj hs ▸ List.Subset.refl _
          · exact h _ s hs
        exact fun hm => h0 (hsub hm)

theorem written_nul (hparts : ∀ p ∈ parts, Part.NoNul p) (h : Within toks name) (h0 : 0 ∉ name) :
    0 ∉ (written toks name parts).flatMap Piece.text := by
  intro hm
  obtain ⟨p, hp, hmem⟩ := mem_flatMap.1 hm
  obtain ⟨part, hpart, hp⟩ := mem_flatMap.1 hp
  cases part with
  | elem e => exact elemPieces_nul (hparts _ hpart) h h0 p hp hmem
  | bracket seqs =>
    obtain ⟨q, hq, hp⟩ := mem_flatMap.1 hp
    obtain ⟨e, he, hp⟩ := mem_flatMap.1 hp
    refine elemPieces_nul ?_ h h0 p hp hmem
    rintro rfl
    exact hparts _ hpart q ((List.takeWhile_prefix _).subset hq) he

end

/-! ### The end -/

theorem str_append {s : Text} (h : 0 ∉ s) (r : Block Byte) :
    str (s.map some ++ some 0 :: r) = some s := by
  induction s with
  | nil => rfl
  | cons c s ih =>
    rw [mem_cons, not_or] at h
    rw [map_cons, cons_append, str, if_neg (Ne.symm h.1), ih h.2]
    rfl

section

variable {o : Out} {s name : Text} {room : ℕ}

theorem finish_none (h : Holds o s room) (hroom : room = 0) : finish name o = .undefined := by
  have hge : o.buf.length ≤ o.pos := by
    rw [h.length, h.pos, hroom]
    exact le_rfl
  rw [finish, write_of_ge hge]

/-- **The string that is returned**: there is room for the name where nothing has been written. -/
theorem finish_some (h : Holds o s room) (hroom : 0 < room) (hs : 0 ∉ s) (hname : 0 ∉ name)
    (hnull : s = [] → name.length + 1 ≤ room) :
    ∃ b, finish name o = .block b ∧ str b = some (if s = [] then name else s) := by
  obtain ⟨r, hr, hlen⟩ := h.buf
  have hlt : o.pos < o.buf.length := by
    rw [h.length, h.pos]
    omega
  obtain ⟨x, r, rfl⟩ := exists_cons_of_length_pos (hlen ▸ hroom)
  have hset : o.buf.set o.pos (some 0) = s.map some ++ some 0 :: r := by
    rw [hr, h.pos, set_append_right _ _ (by rw [length_map]), length_map, Nat.sub_self]
    rfl
  rw [finish, write_of_lt hlt, hset]
  dsimp only
  cases s with
  | nil =>
    have hfits : 0 + (name ++ [0]).length ≤ (some (0 : Byte) :: r).length := by
      rw [Nat.zero_add, length_append, length_singleton, length_cons]
      rw [length_cons] at hlen
      have hle := hnull rfl
      omega
    have hfill := fill_eq (Nat.zero_le (some (0 : Byte) :: r).length) (name ++ [0])
    rw [if_pos hfits] at hfill
    have hfetch : fetch (some (0 : Byte) :: r) 0 = some 0 := rfl
    rw [map_nil, nil_append, if_pos hfetch, hfill, if_pos rfl]
    refine ⟨_, rfl, ?_⟩
    rw [take_zero, nil_append, map_append, append_assoc]
    exact str_append hname _
  | cons c s =>
    have hc : c ≠ 0 := fun hc => hs (hc ▸ mem_cons_self)
    have hfetch : fetch ((c :: s).map some ++ some 0 :: r) 0 ≠ some 0 := fun hf => hc (some.inj hf)
    rw [if_neg hfetch]
    exact ⟨_, rfl, str_append hs r⟩

end

theorem written_eq {toks : Toks} {name : Text}
    (hsole : ∀ seqs, .bracket seqs ∈ parts → Sole toks name seqs) : written toks name parts =
    pieces toks name parts := by
  unfold written pieces
  rw [flatMap_def, flatMap_def]
  refine congrArg List.flatten (map_congr_left fun p hp => ?_)
  cases p with
  | elem e => rfl
  | bracket seqs => exact leadingPieces_eq toks name (hsole seqs hp)

theorem holds_start (n : ℕ) : Holds ⟨(alloc (n + 1)).set 0 (some 0), 0⟩ [] (n + 1) :=
  ⟨⟨(alloc (n + 1)).set 0 (some 0), rfl, by rw [length_set, length_alloc]⟩, rfl⟩

theorem domap_eq (moves : ℕ → Bool) {mapin mapout name : Text} (hclear : Clear mapin name)
    (hparts : template mapout = some parts) (hvars : ∀ seqs, .bracket seqs ∈ parts → Vars seqs) :
    domap moves mapin mapout name =
      match writes moves (written (values mapin name) name parts)
      ⟨(alloc (name.length + 1)).set 0 (some 0), 0⟩ with
      | none => .undefined
      | some o => finish name o := by
  have hmatch : matchLoop name mapin (fun _ => none) 0 = some (values mapin name) :=
    matchLoop_eq hclear (fun _ => none, 0)
  rw [domap, hmatch]
  dsimp only
  rw [copyLoop_eq moves (values mapin name) name _ hparts hvars]
  cases writes moves (written (values mapin name) name parts) _ <;> rfl

/-- **The name is mapped** as the manual says, where the patterns are readable, just in case it
fits. -/
theorem nmap_iff {moves : ℕ → Bool} {mapin mapout name : Str} (h : Readable mapin mapout name) :
    Maps moves mapin mapout name ↔ Fits moves mapin mapout name := by
  obtain ⟨hclear, parts, hparts, hbrackets⟩ := h
  have hstart := holds_start name.1.length
  have hdomap := domap_eq moves hclear hparts fun seqs hseqs => (hbrackets seqs hseqs).1
  constructor
  · rintro ⟨b, s, hb, -, -⟩ parts' hparts'
    obtain rfl := some.inj (hparts.symm.trans hparts')
    rw [hdomap] at hb
    by_contra hnot
    by_cases hfits : cost (written (values mapin name) name parts) ≤ name.1.length + 1 ∧
        Stays moves (name.1.length + 1) (written (values mapin name) name parts)
    · obtain ⟨hcost, hstays⟩ := hfits
      obtain ⟨o, ho, hholds⟩ := writes_some hstart hcost (by rwa [length_nil, zero_add])
      have hroom : name.1.length + 1 - cost (written (values mapin name) name parts) = 0 := by
        have hlt : ¬ cost (written (values mapin name) name parts) ≤ name.1.length :=
          fun hle => hnot ⟨hle, hstays⟩
        omega
      rw [ho] at hb
      dsimp only at hb
      rw [finish_none hholds hroom] at hb
      cases hb
    · have hnone : writes moves (written (values mapin name) name parts)
          ⟨(alloc (name.1.length + 1)).set 0 (some 0), 0⟩ = none := by
        refine writes_none hstart fun hcost hstays => hfits ⟨hcost, ?_⟩
        rwa [length_nil, zero_add] at hstays
      rw [hnone] at hb
      cases hb
  · intro hfits
    obtain ⟨hcost, hstays⟩ := hfits parts hparts
    have hnul : 0 ∉ (written (values mapin name) name parts).flatMap Piece.text :=
      written_nul (template_nul hparts mapout.2) (within_values _ _) name.2
    have hlen := cost_le (written (values mapin name) name parts)
    obtain ⟨o, ho, hholds⟩ :=
      writes_some hstart (Nat.le_succ_of_le hcost) (by rwa [length_nil, zero_add])
    rw [nil_append] at hholds
    obtain ⟨b, hb, hstr⟩ := finish_some hholds (by omega) hnul name.2 fun hnull => by
      rw [hnull, length_nil] at hlen
      omega
    refine ⟨b, _, ?_, hstr, fun hmatches parts' hparts' => ?_⟩
    · rw [hdomap, ho]
      exact hb
    · obtain rfl := some.inj (hparts.symm.trans hparts')
      rw [written_eq fun seqs hseqs => (hbrackets seqs hseqs).2 hmatches]
      rfl

/-- `$1.$2` -/
def twoVars : Str := ⟨[36, 49, 46, 36, 50], by decide⟩

/-- `[$3,$2]` -/
def thirdOrSecond : Str := ⟨[91, 36, 51, 44, 36, 50, 93], by decide⟩

/-- `a.b` -/
def shortName : Str := ⟨[97, 46, 98], by decide⟩

theorem maps_short : Maps (fun _ => true) twoVars thirdOrSecond shortName := by
  have hparts :
      template thirdOrSecond.1 = some [.bracket [[.var 51], [.var 50]]] := by decide +kernel
  have hclear : Clear twoVars.1 shortName.1 := by
    refine Clear.var rfl (by decide) ⟨by decide, by decide⟩ ?_
    exact Clear.var rfl (by decide) ⟨by decide, by decide⟩ (Clear.name _)
  refine (nmap_iff ⟨hclear, _, hparts, fun seqs hseqs => ?_⟩).2 fun parts h => ?_
  · cases mem_singleton.1 hseqs
    refine ⟨fun q hq e he => ?_, fun _ => ⟨by decide +kernel, fun hnull => ?_⟩⟩
    · rcases mem_cons.1 hq with rfl | hq
      · exact ⟨51, mem_singleton.1 he⟩
      · cases mem_singleton.1 hq
        exact ⟨50, mem_singleton.1 he⟩
    · have hsecond := hnull [.var 50] (by decide)
      exact absurd hsecond (by decide +kernel)
  · obtain rfl := some.inj (hparts.symm.trans h)
    have hwritten :
        written (values twoVars.1 shortName.1) shortName.1 [.bracket [[.var 51], [.var 50]]] =
        [.value [98]] := by decide +kernel
    rw [hwritten]
    exact ⟨by decide, fun hlong => absurd hlong (by decide), trivial⟩

/-- `$1.$2.$3` -/
def manualIn : Str := ⟨[36, 49, 46, 36, 50, 46, 36, 51], by decide⟩

/-- `[$1,$2].[$2,file]` -/
def manualOut : Str :=
  ⟨[91, 36, 49, 44, 36, 50, 93, 46, 91, 36, 50, 44, 102, 105, 108, 101, 93], by decide⟩

/-- `myfile` -/
def manualName : Str := ⟨[109, 121, 102, 105, 108, 101], by decide⟩

/-- **The example of the manual** goes on for ever, at the `f` of `file`. -/
theorem not_maps_manual : ¬ Maps (fun _ => false) manualIn manualOut manualName := by
  rintro ⟨b, s, hb, -⟩
  have hforever :
      domap (fun _ => false) manualIn.1 manualOut.1 manualName.1 = .forever := by decide +kernel
  rw [hforever] at hb
  cases hb

end Inetutils.Ftp.Mapping
