import Inetutils.Lib.Runs
import Inetutils.Session.Entries
import Mathlib.Data.List.Nodup

/-! # The negotiation of the special characters

The two tables and the messages on the way, each a list of triplets. Either program may find that a
character of its terminal has changed, at any time. What becomes of one function is a talk between
its entries (`talk`): a message has at most one triplet that concerns it (`Tidy`), and a step of the
session is a step of the talk or leaves it.

Every run ends in agreement (`slc_settles`): the triplets for a function are bounded by the number
of checks made, and with nothing on the way the two entries have the same level, and the same
character if that is not `SLC_NOSUPPORT`. -/

namespace Inetutils.Session.Characters

open Lib.Mealy Lib.Runs Lib.Arbiter List
open Telnet.Proto Telnet.Triplets Entries
open Telnet.Slc (Spc SpcData update_not_acks slcTriplet slcUpdate slcInit slcCheck slcExport)
open Telnetd.Slc (Slcfun Slctab SlcState startSlc endSlc processSlc optSlc checkSlc sendSlc
  defaultSlc getSlcDefaults spcset)

variable {l : List Triplet}

/-! ### The session -/

structure Link where
  client : SpcData
  server : SlcState
  toClient : List (List Triplet)
  toServer : List (List Triplet)
  sent : List Triplet

/-- A character of a terminal changes, a program checks its characters, or handles the first message
on the way to it; the server reads the characters of its terminal again before. -/
inductive Op
  | clientChar (i c : Byte)
  | serverChar (i c : Byte)
  | slcCheck
  | checkSlc
  | slc
  | optSlc (tty : Byte → Byte)

def Op.checks : Op → Bool
  | .slcCheck => true
  | .checkSlc => true
  | _ => false

def payload (l : List Triplet) : List Byte := l.flatMap fun t => [t.func, t.flag, t.val]

def post (l : List Triplet) : List (List Triplet) := if l = [] then [] else [l]

def flushed (sv : SlcState) : List Triplet := if sv.ended then sv.added else []

def Link.fromClient (r : SpcData × List Triplet) (s : Link) : Link :=
  { s with client := r.1, toServer := s.toServer ++ post r.2, sent := s.sent ++ r.2 }

def Link.fromServer (sv : SlcState) (s : Link) : Link :=
  { s with server := sv, toClient := s.toClient ++ post (flushed sv), sent := s.sent ++ flushed sv }

section
variable (vdisable : Byte)

def step (s : Link) : Op → Link
  | .clientChar i c =>
    let e := s.client i
    { s with client := Function.update s.client i { e with valp := e.valp.map fun _ => c } }
  | .serverChar i c =>
    let e := s.server.tab i
    { s with server.tab := Function.update s.server.tab i { e with sptr := e.sptr.map fun _ => c } }
  | .slcCheck => s.fromClient (slcCheck vdisable s.client)
  | .checkSlc => s.fromServer (endSlc false (checkSlc vdisable (startSlc none s.server)))
  | .slc =>
    match s.toClient with
    | [] => s
    | l :: ls => { s with toClient := ls }.fromClient (Telnet.Slc.slc (payload l) s.client)
  | .optSlc tty =>
    match s.toServer with
    | [] => s
    | l :: ls => { s with toServer := ls }.fromServer (optSlc vdisable tty (payload l) s.server)

/-- The client has called `slc_init`, which exports its characters or, unless `slc_mode` is
`SLC_EXPORT`, asks for the defaults; the server has called `get_slc_defaults`, and `terminit`. The
characters of the terminals, and which of them the client has, are parameters. -/
def start (sysv exports : Bool) (tcval : Byte → Option Byte) (tty tty' : Byte → Byte) : Link :=
  let d := slcInit sysv tcval
  let r := if exports then slcExport vdisable tty d else (d, [⟨0, SLC_DEFAULT, 0⟩])
  { client := r.1
    server := ⟨getSlcDefaults (spcset tty'), none, true, [], false⟩
    toClient := []
    toServer := post r.2
    sent := r.2 }

end

/-! ### Tables -/

/-- A table of entries that `f` goes through. -/
def row {ε : Type*} (f : Byte → ε → ε × Option (Byte × Byte)) (d : Byte → ε) (i : Byte) :
    (Byte → ε) × List Triplet :=
  (Function.update d i (f i (d i)).1, ((f i (d i)).2.map fun p => Triplet.mk i p.1 p.2).toList)

def about (i : Byte) (t : Triplet) : Bool := t.func = i

def concerns (i : Byte) (t : Triplet) : Bool := t.func = 0 ∨ t.func = i

theorem triplets_payload (l : List Triplet) : triplets (payload l) = l := by
  induction l with
  | nil => rfl
  | cons t l ih =>
    show triplets (t.func :: t.flag :: t.val :: payload l) = _
    rw [triplets, ih]

section
variable {ε : Type*} (f : Byte → ε → ε × Option (Byte × Byte)) {i : Byte}

theorem row_project (d : Byte → ε) (j : Byte) :
    ((row f d j).1 i, (row f d j).2.filter (about i)) =
      if decide (j = i) then
      ((f i (d i)).1, ((f i (d i)).2.map fun p => Triplet.mk i p.1 p.2).toList)
      else (d i, []) := by
  by_cases h : j = i
  · subst h
    rw [if_pos (by simp)]
    refine Prod.ext (Function.update_self ..) ?_
    show List.filter _ (Option.toList _) = _
    rcases (f j (d j)).2 with _ | p
    · rfl
    · simp [about]
  · rw [if_neg (by simpa using h)]
    refine Prod.ext (Function.update_of_ne (Ne.symm h) ..) ?_
    show List.filter _ (Option.toList _) = _
    rcases (f j (d j)).2 with _ | p
    · rfl
    · simp [about, h]

theorem feed_row (hi : i ∈ funcs) (d : Byte → ε) :
    ((feed (row f) d funcs).1 i, (feed (row f) d funcs).2.filter (about i)) =
      ((f i (d i)).1, ((f i (d i)).2.map fun p => Triplet.mk i p.1 p.2).toList) := by
  have honce : ∀ i ∈ funcs, funcs.filter (fun j => decide (j = i)) = [i] := by decide +kernel
  rw [feed_project (row f)
    (g := fun e _ => ((f i e).1, ((f i e).2.map fun p => Triplet.mk i p.1 p.2).toList))
    (fun d => d i) (fun j => decide (j = i)) (about i) (row_project f) funcs d,
    honce i hi, feed_cons, feed_nil, append_nil]

theorem map_func_row (d : Byte → ε) (j : Byte) : ((row f d j).2.map Triplet.func).Sublist [j] := by
  show (List.map _ (Option.toList _)).Sublist _
  rcases (f j (d j)).2 with _ | p
  · exact nil_sublist _
  · exact .refl _

end

/-! ### The server as a machine -/

def put (s : SlcState) (r : Slctab × List Triplet) : SlcState :=
  { s with tab := r.1, added := s.added ++ r.2 }

/-- `process_slc`: the table, and the triplets added. -/
def served (vdisable : Byte) (tab : Slctab) (t : Triplet) : Slctab × List Triplet :=
  if t.func.toNat > NSLC then (tab, [⟨t.func, SLC_NOSUPPORT, 0⟩])
  else if t.func = 0 then
    if level t.flag = SLC_DEFAULT then
      feed (row fun _ => Slcfun.send) (defaultSlc vdisable tab) funcs
    else if level t.flag = SLC_VARIABLE then feed (row fun _ => Slcfun.send) tab funcs
    else (tab, [])
  else row (fun _ e => e.process vdisable t.flag t.val) tab t.func

theorem foldl_put {α : Type*} {g : SlcState → α → SlcState} {f : Slctab → α → Slctab × List Triplet}
    (h : ∀ s a, g s a = put s (f s.tab a)) (l : List α) (s : SlcState) :
    l.foldl g s = put s (feed f s.tab l) := by
  induction l generalizing s with
  | nil => simp [put]
  | cons a l ih =>
    rw [foldl_cons, ih, h]
    simp [put, feed_cons]

theorem put_nil (s : SlcState) : put s (s.tab, []) = s := by
  simp [put]

theorem processSlc_eq (vdisable : Byte) (s : SlcState) (t : Triplet) :
    processSlc vdisable s t = put s (served vdisable s.tab t) := by
  unfold processSlc served
  split_ifs
  · rfl
  · exact foldl_put (f := row fun _ => Slcfun.send) (fun _ _ => rfl) funcs
      { s with tab := defaultSlc vdisable s.tab }
  · exact foldl_put (f := row fun _ => Slcfun.send) (fun _ _ => rfl) funcs s
  · exact (put_nil s).symm
  · rfl

theorem endSlc_put {s : SlcState} (ht : s.terminit = true) (hadded : s.added = [])
    (hended : s.ended = false) (r : Slctab × List Triplet) : (endSlc false (put s r)).tab = r.1 ∧
      (endSlc false (put s r)).terminit = true ∧ flushed (endSlc false (put s r)) = r.2 := by
  have hput : (put s r).added = r.2 := by simp [put, hadded]
  unfold endSlc
  rw [if_neg (by simp [put, ht]), hput]
  by_cases h : r.2 = []
  · rw [if_neg (by simp [h])]
    refine ⟨rfl, ht, ?_⟩
    rw [h]
    exact if_neg (by simp [put, hended])
  · rw [if_pos ⟨h, rfl⟩]
    exact ⟨rfl, ht, rfl⟩

theorem checkSlc_spec (vdisable : Byte) {s : SlcState} (ht : s.terminit = true) :
    let sv := endSlc false (checkSlc vdisable (startSlc none s))
    let r := feed (row fun _ => Slcfun.check vdisable) s.tab funcs
    sv.tab = r.1 ∧ sv.terminit = true ∧ flushed sv = r.2 := by
  have h : checkSlc vdisable (startSlc none s) =
      put (startSlc none s) (feed (row fun _ => Slcfun.check vdisable) s.tab funcs) :=
    foldl_put (f := row fun _ => Slcfun.check vdisable) (fun _ _ => rfl) funcs (startSlc none s)
  rw [h]
  exact endSlc_put (s := startSlc none s) ht rfl rfl _

theorem optSlc_spec (vdisable : Byte) (tty : Byte → Byte) {s : SlcState} (ht : s.terminit = true)
    (l : List Triplet) :
    let sv := optSlc vdisable tty (payload l) s
    let r := feed (served vdisable) (startSlc (some tty) s).tab l
    sv.tab = r.1 ∧ sv.terminit = true ∧ flushed sv = r.2 := by
  have h : Telnetd.Slc.doOptSlc vdisable (payload l) (startSlc (some tty) s) =
      put (startSlc (some tty) s) (feed (served vdisable) (startSlc (some tty) s).tab l) := by
    unfold Telnetd.Slc.doOptSlc
    rw [if_pos (show (startSlc (some tty) s).terminit = true from ht), triplets_payload]
    exact foldl_put (processSlc_eq vdisable) l _
  unfold optSlc
  rw [h]
  exact endSlc_put (s := startSlc (some tty) s) ht rfl rfl _

/-! ### What becomes of one function -/

/-- The entry of the server for the function `i`, as a machine. -/
def serverEntry (vdisable i : Byte) (e : Slcfun) (t : Triplet) : Slcfun × List Triplet :=
  ((answer vdisable i e t).1, (answer vdisable i e t).2.toList)

def clientEntry (i : Byte) (e : Spc) (t : Triplet) : Spc × List Triplet :=
  ((e.slc t.flag t.val).1, ((e.slc t.flag t.val).2.map fun p => Triplet.mk i p.1 p.2).toList)

section
variable (vdisable : Byte) {i : Byte} (hi : i ∈ funcs)
include hi

theorem served_project (tab : Slctab) (t : Triplet) :
    ((served vdisable tab t).1 i, (served vdisable tab t).2.filter (about i)) =
      if concerns i t then serverEntry vdisable i (tab i) t else (tab i, []) := by
  obtain ⟨hi0, hile⟩ := (mem_funcs i).mp hi
  unfold served serverEntry answer
  by_cases hbig : t.func.toNat > NSLC
  · have h0 : t.func ≠ 0 := by
      rintro h
      rw [h] at hbig
      exact absurd hbig (by decide)
    have hne : t.func ≠ i := by
      rintro rfl
      omega
    have hc : ¬ concerns i t = true := by simp [concerns, h0, hne]
    rw [if_pos hbig, if_neg hc]
    simp [about, hne]
  rw [if_neg hbig]
  by_cases h0 : t.func = 0
  · have hc : concerns i t = true := by simp [concerns, h0]
    rw [if_pos h0, if_pos hc, if_pos h0]
    by_cases hd : level t.flag = SLC_DEFAULT
    · rw [if_pos hd, if_pos hd, feed_row _ hi]
      simp only [defaultSlc, if_pos hi]
    · rw [if_neg hd, if_neg hd]
      split_ifs
      · rw [feed_row _ hi]
      · rfl
  · rw [if_neg h0, row_project, if_neg h0]
    simp only [concerns, h0, false_or]

theorem slcTriplet_project (d : SpcData) (t : Triplet) :
    ((slcTriplet d t).1 i, (slcTriplet d t).2.filter (about i)) =
      if about i t then clientEntry i (d i) t else (d i, []) := by
  obtain ⟨hi0, hile⟩ := (mem_funcs i).mp hi
  unfold slcTriplet
  by_cases h0 : t.func = 0
  · have hne : ¬ about i t = true := by simp [about, h0, Ne.symm hi0]
    rw [if_pos h0, if_neg hne]
    rfl
  rw [if_neg h0]
  by_cases hbig : t.func.toNat > NSLC
  · have hne : t.func ≠ i := by
      rintro rfl
      omega
    have ha : ¬ about i t = true := by simp [about, hne]
    split_ifs
    · rfl
    · simp [about, hne]
  · rw [if_neg hbig]
    exact row_project (fun _ e => e.slc t.flag t.val) d t.func

end

/-! ### Messages -/

/-- The message of a request: every function once, or the function 0 alone. -/
structure Tidy (l : List Triplet) : Prop where
  nodup : (l.map Triplet.func).Nodup
  alone : 0 ∈ l.map Triplet.func → l.length ≤ 1

structure Clean (l : List Triplet) : Prop where
  nodup : (l.map Triplet.func).Nodup
  zero : 0 ∉ l.map Triplet.func

theorem Clean.tidy (h : Clean l) : Tidy l := ⟨h.nodup, fun h0 => absurd h0 h.zero⟩

theorem clean_of_sublist {k : List Byte} (h : (l.map Triplet.func).Sublist k)
    (hk : k.Nodup) (h0 : 0 ∉ k) : Clean l := ⟨hk.sublist h, fun h' => h0 (h.subset h')⟩

theorem clean_of_funcs (h : (l.map Triplet.func).Sublist funcs) : Clean l :=
  clean_of_sublist h (by decide) (by decide)

theorem map_func_funcs {ε : Type*} (f : Byte → ε → ε × Option (Byte × Byte)) (d : Byte → ε) :
    ((feed (row f) d funcs).2.map Triplet.func).Sublist funcs := by
  have h := map_feed_sublist (row f) id Triplet.func funcs d fun j _ s => map_func_row f s j
  rwa [map_id] at h

theorem map_func_slc (d : SpcData) (t : Triplet) :
    ((slcTriplet d t).2.map Triplet.func).Sublist [t.func] := by
  unfold slcTriplet
  split_ifs
  · exact nil_sublist _
  · exact nil_sublist _
  · exact .refl _
  · exact map_func_row (fun _ e => e.slc t.flag t.val) d t.func

theorem clean_slc (h : Clean l) (d : SpcData) : Clean (feed slcTriplet d l).2 :=
  clean_of_sublist
    (map_feed_sublist slcTriplet Triplet.func Triplet.func l d fun t _ s => map_func_slc s t)
    h.nodup h.zero

variable (tab : Slctab)

theorem map_func_send :
    ((feed (row fun _ => Slcfun.send) tab funcs).2.map Triplet.func).Sublist funcs :=
  map_func_funcs (fun _ => Slcfun.send) tab

theorem clean_served_zero (vdisable : Byte) (tab : Slctab) {t : Triplet} (ht : t.func = 0) :
    Clean (served vdisable tab t).2 := by
  unfold served
  rw [ht, if_neg (by decide), if_pos rfl]
  split_ifs
  · exact clean_of_funcs (map_func_send (defaultSlc vdisable tab))
  · exact clean_of_funcs (map_func_send tab)
  · exact clean_of_funcs (nil_sublist _)

theorem map_func_served (vdisable : Byte) (tab : Slctab) {t : Triplet} (ht : t.func ≠ 0) :
    ((served vdisable tab t).2.map Triplet.func).Sublist [t.func] := by
  unfold served
  split_ifs
  · exact .refl _
  · exact map_func_row (fun _ e => e.process vdisable t.flag t.val) tab t.func

theorem clean_served (vdisable : Byte) (tab : Slctab) (h : Tidy l) :
    Clean (feed (served vdisable) tab l).2 := by
  by_cases h0 : 0 ∈ l.map Triplet.func
  · have hone := h.alone h0
    obtain ⟨t, ht, hf⟩ := mem_map.mp h0
    obtain rfl : l = [t] := by
      rcases l with _ | ⟨a, _ | ⟨b, l⟩⟩
      · cases ht
      · rw [mem_singleton.mp ht]
      · exact absurd hone (by simp)
    rw [feed_cons, feed_nil, append_nil]
    exact clean_served_zero vdisable tab hf
  · refine clean_of_sublist ?_ h.nodup h0
    refine map_feed_sublist _ Triplet.func Triplet.func l tab fun t ht s => ?_
    exact map_func_served vdisable s fun hf => h0 (mem_map.mpr ⟨t, ht, hf⟩)

theorem Clean.concerns_eq (h : Clean l) (i : Byte) :
    l.filter (concerns i) = l.filter (about i) := by
  refine filter_congr fun t ht => ?_
  have hf : t.func ≠ 0 := fun hf => h.zero (mem_map.mpr ⟨t, ht, hf⟩)
  simp [concerns, about, hf]

theorem slc_spec {i : Byte} (hi : i ∈ funcs) (h : Clean l) (d : SpcData) :
    let r := Telnet.Slc.slc (payload l) d
    let e := feed (clientEntry i) (d i) (l.filter (about i))
    Clean r.2 ∧ r.1 i = e.1.update ∧ r.2.filter (concerns i) = e.2 := by
  have hslc : Telnet.Slc.slc (payload l) d =
      (slcUpdate (feed slcTriplet d l).1, (feed slcTriplet d l).2) := by
    unfold Telnet.Slc.slc
    rw [triplets_payload]
  obtain ⟨h1, h2⟩ := Prod.ext_iff.mp
    (feed_project slcTriplet (fun d => d i) (about i) (about i) (slcTriplet_project hi) l d)
  have hclean := clean_slc h d
  intro r e
  rw [show r = _ from hslc]
  exact ⟨hclean, (if_pos hi).trans (congrArg Spc.update h1), (hclean.concerns_eq i).trans h2⟩

theorem filter_about (h : (l.map Triplet.func).Nodup) (i : Byte) :
    ∃ u : Option Triplet, l.filter (about i) = u.toList := by
  have hlen : (l.filter (about i)).length ≤ 1 := by
    have hcount := nodup_iff_count_le_one.mp h i
    rw [count_eq_countP, countP_map, countP_eq_length_filter] at hcount
    have heq : ((· == i) ∘ Triplet.func) = about i := by
      funext t
      rw [Bool.eq_iff_iff]
      simp [about]
    rwa [heq] at hcount
  rcases hl : l.filter (about i) with _ | ⟨u, _ | ⟨v, k⟩⟩
  · exact ⟨none, rfl⟩
  · exact ⟨some u, rfl⟩
  · rw [hl] at hlen
    exact absurd hlen (by simp)

theorem Tidy.filter_concerns (h : Tidy l) (i : Byte) :
    ∃ u : Option Triplet, l.filter (concerns i) = u.toList := by
  by_cases h0 : 0 ∈ l.map Triplet.func
  · have hlen := (length_filter_le (concerns i) l).trans (h.alone h0)
    rcases hl : l.filter (concerns i) with _ | ⟨u, _ | ⟨v, k⟩⟩
    · exact ⟨none, rfl⟩
    · exact ⟨some u, rfl⟩
    · rw [hl] at hlen
      exact absurd hlen (by simp)
  · rw [Clean.concerns_eq ⟨h.nodup, h0⟩]
    exact filter_about h.nodup i

/-! ### The talk about a function -/

def talk (i : Byte) (s : Link) : Talk Spc Slcfun Triplet Triplet where
  client := s.client i
  server := s.server.tab i
  toServer := s.toServer.flatten.filter (concerns i)
  toClient := s.toClient.flatten.filter (about i)
  sent := (s.sent.filter (concerns i)).length

structure Good (s : Link) : Prop where
  terminit : s.server.terminit = true
  toClient : ∀ l ∈ s.toClient, Clean l
  toServer : ∀ l ∈ s.toServer, Tidy l

theorem flatten_post (l : List Triplet) : (post l).flatten = l := by
  unfold post
  split_ifs with h
  · exact h.symm
  · exact append_nil l

theorem mem_post {l' : List Triplet} (h : l' ∈ post l) : l' = l := by
  unfold post at h
  split_ifs at h
  · cases h
  · exact mem_singleton.mp h

section
variable {s : Link} {i : Byte}

variable {r : SpcData × List Triplet} {sv : SlcState}

theorem Good.fromClient (h : Good s) (hr : Tidy r.2) : Good (s.fromClient r) := by
  refine ⟨h.terminit, h.toClient, fun l hl => ?_⟩
  rcases mem_append.mp hl with hl | hl
  · exact h.toServer l hl
  · rwa [mem_post hl]

theorem Good.fromServer (h : Good s) (ht : sv.terminit = true) (hl : Clean (flushed sv)) :
    Good (s.fromServer sv) := by
  refine ⟨ht, fun l hl' => ?_, h.toServer⟩
  rcases mem_append.mp hl' with hl' | hl'
  · exact h.toClient l hl'
  · rwa [mem_post hl']

theorem talk_fromClient {u : Option Triplet} (hr : r.2.filter (concerns i) = u.toList) :
    talk i (s.fromClient r) = (talk i s).ask (r.1 i) u := by
  simp [talk, Link.fromClient, Talk.ask, flatten_post, hr]

theorem talk_fromServer (hclean : Clean (flushed sv)) {d : Option Triplet}
    (hd : (flushed sv).filter (about i) = d.toList) :
    talk i (s.fromServer sv) = (talk i s).tell (sv.tab i) d := by
  have hc := (hclean.concerns_eq i).trans hd
  simp [talk, Link.fromServer, Talk.tell, flatten_post, hd, hc]

end

/-! ### A step for a function -/

/-- What the client and the server have, and what is on the way, for the function `i`. -/
def Sound (vdisable i m : Byte) (s : Link) : Prop :=
  Inv (rules vdisable i m) (Quiet m) Fixed (Request m) (talk i s)

def cost (vdisable i m : Byte) (s : Link) : ℕ := (rules vdisable i m).cost (talk i s)

section
variable {vdisable i m : Byte} {t : Talk Spc Slcfun Triplet Triplet}

variable {a : Option (Byte × Byte)}

theorem sound_announces (hi : i ∈ funcs) {e' : Spc}
    (ht : Inv (rules vdisable i m) (Quiet m) Fixed (Request m) t) (ha : Announces m t.client e' a) :
    Inv (rules vdisable i m) (Quiet m) Fixed (Request m)
        (t.ask e' (a.map fun p => Triplet.mk i p.1 p.2)) ∧
      (rules vdisable i m).cost (t.ask e' (a.map fun p => Triplet.mk i p.1 p.2)) ≤
        (rules vdisable i m).cost t + 4 := by
  have hi0 : i ≠ 0 := ((mem_funcs i).mp hi).1
  rcases a with _ | ⟨f, v⟩
  · rw [ha.none rfl]
    exact ⟨ht.ask ht.okC (fun u hu => absurd hu (by simp))
      (.inr ⟨rfl, rfl⟩), by rw [cost_ask]; exact Nat.le_add_right _ _⟩
  · obtain ⟨hf, hle, hv⟩ := ha.some _ rfl
    constructor
    · refine ht.ask ha.quiet ?_ (.inl ?_)
      · rintro u hu
        cases hu
        exact .inr (.inr hle)
      · show (if i = 0 ∨ acks f = true then _ else some (view f v)) = some (view _ _)
        rw [if_neg (by simp [hi0, hf]), hv]
    · rw [cost_ask]
      refine Nat.add_le_add_left ?_ _
      show (if i = 0 then 4 else if acks f = true then 0 else 2) + 1 ≤ 4
      rw [if_neg hi0, hf]
      decide

theorem sound_tells {e' : Slcfun} (ht : Inv (rules vdisable i m) (Quiet m) Fixed (Request m) t)
    (he : Fixed e') (ha : Tells t.server e' a) :
    Inv (rules vdisable i m) (Quiet m) Fixed (Request m)
        (t.tell e' (a.map fun p => Triplet.mk i p.1 p.2)) ∧
      (rules vdisable i m).cost (t.tell e' (a.map fun p => Triplet.mk i p.1 p.2)) ≤
        (rules vdisable i m).cost t + 4 := by
  constructor
  · refine ht.tell he ?_ fun hnone => ha.2 (Option.map_eq_none_iff.mp hnone)
    intro d hd
    obtain ⟨p, hp, rfl⟩ := Option.map_eq_some_iff.mp hd
    exact ha.1 p hp
  · rw [cost_tell]
    refine Nat.add_le_add_left ?_ _
    rcases a with _ | p
    · exact Nat.zero_le _
    · show (if _ then 1 else 3) + 1 ≤ 4
      split_ifs <;> decide

end

section
variable {vdisable i m : Byte} {s : Link} (hi : i ∈ funcs) (hm : acks m = false)
  (hg : Good s) (h : Sound vdisable i m s)

/-- What a step keeps, and what it adds to the triplets that are or will be sent. -/
structure Keeps (vdisable i m : Byte) (n : ℕ) (s s' : Link) : Prop where
  good : Good s'
  sound : Sound vdisable i m s'
  cost : cost vdisable i m s' ≤ cost vdisable i m s + n

include hg h in
theorem keeps_clientChar (j c : Byte) :
    Keeps vdisable i m 0 s (step vdisable s (.clientChar j c)) := by
  have htalk : ∃ o, talk i (step vdisable s (.clientChar j c)) =
      (talk i s).ask { s.client i with valp := o } none := by
    by_cases hj : i = j
    · subst hj
      refine ⟨(s.client i).valp.map fun _ => c, ?_⟩
      simp [talk, step, Talk.ask]
    · refine ⟨(s.client i).valp, ?_⟩
      simp [talk, step, Talk.ask, Function.update_of_ne hj]
  obtain ⟨o, ho⟩ := htalk
  refine ⟨⟨hg.terminit, hg.toClient, hg.toServer⟩, ?_, ?_⟩
  · unfold Sound
    rw [ho]
    exact h.ask ⟨h.okC.mylevel, h.okC.acks, h.okC.le⟩ (fun u hu => absurd hu (by simp))
      (.inr ⟨rfl, rfl⟩)
  · unfold cost
    rw [ho, cost_ask]
    exact le_rfl

theorem sound_sptr {t : Talk Spc Slcfun Triplet Triplet}
    (ht : Inv (rules vdisable i m) (Quiet m) Fixed (Request m) t) {o : Option Byte}
    (ho : o.isSome = t.server.sptr.isSome) :
    Inv (rules vdisable i m) (Quiet m) Fixed (Request m)
      { t with server := { t.server with sptr := o } } :=
  ⟨ht.okC, Fixed.sptr ht.okS ho, ht.okU, ht.told, ht.asked⟩

include hg h in
theorem keeps_serverChar (j c : Byte) :
    Keeps vdisable i m 0 s (step vdisable s (.serverChar j c)) := by
  have htalk : ∃ o : Option Byte, o.isSome = (s.server.tab i).sptr.isSome ∧
      talk i (step vdisable s (.serverChar j c)) =
        { talk i s with server := { s.server.tab i with sptr := o } } := by
    by_cases hj : i = j
    · subst hj
      refine ⟨(s.server.tab i).sptr.map fun _ => c, Option.isSome_map .., ?_⟩
      simp [talk, step]
    · refine ⟨(s.server.tab i).sptr, rfl, ?_⟩
      simp [talk, step, Function.update_of_ne hj]
  obtain ⟨o, hsome, ho⟩ := htalk
  refine ⟨⟨hg.terminit, hg.toClient, hg.toServer⟩, ?_, ?_⟩
  · unfold Sound
    rw [ho]
    exact sound_sptr h hsome
  · unfold cost
    exact le_rfl

include hi hm hg h in
theorem keeps_slcCheck : Keeps vdisable i m 4 s (step vdisable s .slcCheck) := by
  have hclean : Clean (slcCheck vdisable s.client).2 :=
    clean_of_funcs (map_func_funcs (fun _ => Spc.check vdisable) s.client)
  obtain ⟨h1, h2⟩ := Prod.ext_iff.mp (feed_row (fun _ => Spc.check vdisable) hi s.client)
  have htalk :=
    talk_fromClient (s := s) (r := slcCheck vdisable s.client) ((hclean.concerns_eq i).trans h2)
  obtain ⟨h3, h4⟩ := sound_announces hi h (announces_check hm vdisable h.okC)
  rw [show (slcCheck vdisable s.client).1 i = _ from h1] at htalk
  refine ⟨hg.fromClient hclean.tidy, ?_, ?_⟩
  · unfold Sound
    exact htalk ▸ h3
  · unfold cost
    exact htalk ▸ h4

include hi hg h in
theorem keeps_checkSlc : Keeps vdisable i m 4 s (step vdisable s .checkSlc) := by
  obtain ⟨htab, hterm, hflush⟩ := checkSlc_spec vdisable hg.terminit
  have hclean : Clean (flushed (endSlc false (checkSlc vdisable (startSlc none s.server)))) := by
    rw [hflush]
    exact clean_of_funcs (map_func_funcs (fun _ => Slcfun.check vdisable) s.server.tab)
  obtain ⟨h1, h2⟩ := Prod.ext_iff.mp (feed_row (fun _ => Slcfun.check vdisable) hi s.server.tab)
  have htalk := talk_fromServer (s := s) hclean ((congrArg (List.filter (about i)) hflush).trans h2)
  obtain ⟨hfixed, htells⟩ := check_spec vdisable h.okS
  obtain ⟨h3, h4⟩ := sound_tells h hfixed htells
  rw [htab, show (feed (row fun _ => Slcfun.check vdisable) s.server.tab funcs).1 i = _ from
    h1] at htalk
  refine ⟨hg.fromServer hterm hclean, ?_, ?_⟩
  · unfold Sound
    exact htalk ▸ h3
  · unfold cost
    exact htalk ▸ h4

include hi hm hg h in
theorem keeps_slc : Keeps vdisable i m 0 s (step vdisable s .slc) := by
  rcases hq : s.toClient with _ | ⟨l, ls⟩
  · have hstep : step vdisable s .slc = s := by simp only [step, hq]
    rw [hstep]
    exact ⟨hg, h, le_rfl⟩
  have hstep : step vdisable s .slc =
      { s with toClient := ls }.fromClient (Telnet.Slc.slc (payload l) s.client) := by
    simp only [step, hq]
  have hclean : Clean l := hg.toClient l (by rw [hq]; exact mem_cons_self)
  have hg' : Good { s with toClient := ls } :=
    ⟨hg.terminit, fun k hk => hg.toClient k (by rw [hq]; exact mem_cons_of_mem _ hk), hg.toServer⟩
  obtain ⟨hclean', hentry, hreply⟩ := slc_spec hi hclean s.client
  obtain ⟨u, hu⟩ := filter_about hclean.nodup i
  have hflat : (talk i s).toClient = u.toList ++ ls.flatten.filter (about i) := by
    show s.toClient.flatten.filter (about i) = _
    rw [hq, flatten_cons, filter_append, hu]
  rw [hu] at hentry hreply
  rw [hstep]
  rcases u with _ | t
  · -- nothing in the message concerns the function
    replace hentry : (Telnet.Slc.slc (payload l) s.client).1 i = s.client i :=
      hentry.trans (update_not_acks h.okC.acks)
    have htalk :
        talk i ({ s with toClient := ls }.fromClient (Telnet.Slc.slc (payload l) s.client)) =
        talk i s := by
      rw [talk_fromClient (u := none) hreply, hentry]
      simp only [Talk.ask, talk] at hflat ⊢
      rw [hflat]
      simp
    refine ⟨hg'.fromClient hclean'.tidy, ?_, ?_⟩
    · unfold Sound
      rwa [htalk]
    · unfold cost
      rw [htalk]
      exact le_rfl
  · have htalk :
        talk i ({ s with toClient := ls }.fromClient (Telnet.Slc.slc (payload l) s.client)) =
        (rules vdisable i m).heard t (ls.flatten.filter (about i)) (talk i s) := by
      rw [talk_fromClient (u := ((rules vdisable i m).hear (s.client i) t).2) (by
        rw [hreply]; exact append_nil _), hentry]
      rfl
    have hL := lawful vdisable ((mem_funcs i).mp hi).1 hm
    refine ⟨hg'.fromClient hclean'.tidy, ?_, ?_⟩
    · unfold Sound
      rw [htalk]
      exact Inv.heard hL h hflat
    · unfold cost
      rw [htalk]
      exact cost_heard hL h hflat

include hi hm hg h in
theorem keeps_optSlc (tty : Byte → Byte) :
    Keeps vdisable i m 0 s (step vdisable s (.optSlc tty)) := by
  rcases hq : s.toServer with _ | ⟨l, ls⟩
  · have hstep : step vdisable s (.optSlc tty) = s := by simp only [step, hq]
    rw [hstep]
    exact ⟨hg, h, le_rfl⟩
  have hstep : step vdisable s (.optSlc tty) =
      { s with toServer := ls }.fromServer (optSlc vdisable tty (payload l) s.server) := by
    simp only [step, hq]
  have htidy : Tidy l := hg.toServer l (by rw [hq]; exact mem_cons_self)
  have hg' : Good { s with toServer := ls } :=
    ⟨hg.terminit, hg.toClient, fun k hk => hg.toServer k (by rw [hq]; exact mem_cons_of_mem _ hk)⟩
  obtain ⟨htab, hterm, hflush⟩ := optSlc_spec vdisable tty hg.terminit l
  have hclean : Clean (flushed (optSlc vdisable tty (payload l) s.server)) := by
    rw [hflush]
    exact clean_served vdisable _ htidy
  obtain ⟨h1, h2⟩ :=
    Prod.ext_iff.mp (feed_project (served vdisable) (fun d => d i) (concerns i) (about i)
    (served_project vdisable hi) l (startSlc (some tty) s.server).tab)
  have hentry : (optSlc vdisable tty (payload l) s.server).tab i = _ := (congrFun htab i).trans h1
  have hreply := (congrArg (List.filter (about i)) hflush).trans h2
  -- the characters of the terminal are read again first
  have hread : Inv (rules vdisable i m) (Quiet m) Fixed (Request m)
      { talk i s with server := (startSlc (some tty) s.server).tab i } :=
    sound_sptr h (Option.isSome_map ..)
  obtain ⟨u, hu⟩ := htidy.filter_concerns i
  have hflat : (talk i s).toServer = u.toList ++ ls.flatten.filter (concerns i) := by
    show s.toServer.flatten.filter (concerns i) = _
    rw [hq, flatten_cons, filter_append, hu]
  rw [hu] at hentry hreply
  rw [hstep]
  rcases u with _ | t
  · have htalk :
        talk i ({ s with toServer := ls }.fromServer (optSlc vdisable tty (payload l) s.server)) =
        { talk i s with server := (startSlc (some tty) s.server).tab i } := by
      rw [talk_fromServer (d := none) hclean hreply, hentry]
      simp only [Talk.tell, talk] at hflat ⊢
      rw [hflat]
      simp
    refine ⟨hg'.fromServer hterm hclean, ?_, ?_⟩
    · unfold Sound
      rwa [htalk]
    · unfold cost
      rw [htalk]
      exact le_rfl
  · have htalk :
        talk i ({ s with toServer := ls }.fromServer (optSlc vdisable tty (payload l) s.server)) =
        (rules vdisable i m).answered t (ls.flatten.filter (concerns i))
          { talk i s with server := (startSlc (some tty) s.server).tab i } := by
      rw [talk_fromServer
        (d := (answer vdisable i ((startSlc (some tty) s.server).tab i) t).2) hclean (by
        rw [hreply]; exact append_nil _), hentry]
      rfl
    have hL := lawful vdisable ((mem_funcs i).mp hi).1 hm
    refine ⟨hg'.fromServer hterm hclean, ?_, ?_⟩
    · unfold Sound
      rw [htalk]
      exact Inv.answered hL hread hflat
    · unfold cost
      rw [htalk]
      exact cost_answered hL hread hflat

end

/-! ### Runs -/

section
variable {vdisable i m : Byte} (hi : i ∈ funcs) (hm : acks m = false)
include hi hm

theorem keeps_step {s : Link} (hg : Good s) (h : Sound vdisable i m s) (o : Op) :
    Keeps vdisable i m (if o.checks then 4 else 0) s (step vdisable s o) := by
  cases o with
  | clientChar j c => exact keeps_clientChar hg h j c
  | serverChar j c => exact keeps_serverChar hg h j c
  | slcCheck => exact keeps_slcCheck hi hm hg h
  | checkSlc => exact keeps_checkSlc hi hg h
  | slc => exact keeps_slc hi hm hg h
  | optSlc tty => exact keeps_optSlc hi hm hg h tty

theorem keeps_run (l : List Op) {s : Link} (hg : Good s) (h : Sound vdisable i m s) :
    Keeps vdisable i m (4 * l.countP Op.checks) s (run (step vdisable) s l) := by
  induction l generalizing s with
  | nil => exact ⟨hg, h, le_rfl⟩
  | cons o l ih =>
    have h1 := keeps_step hi hm hg h o
    obtain ⟨h2, h3, h4⟩ := ih h1.good h1.sound
    refine ⟨h2, h3, h4.trans ?_⟩
    have h5 := h1.cost
    rw [countP_cons]
    split_ifs at h5 ⊢ <;> omega

end

theorem init_spec (o : Option Byte) {flags : Byte} (h : acks (SLC_VARIABLE ||| flags) = false) :
    (Spc.init o flags).flags = SLC_NOSUPPORT ∧ acks (Spc.init o flags).mylevel = false := by
  rcases o with _ | c
  · refine ⟨rfl, ?_⟩
    show acks SLC_DEFAULT = false
    decide
  · exact ⟨rfl, h⟩

theorem slcInit_spec (sysv : Bool) (tcval : Byte → Option Byte) (i : Byte) :
    (slcInit sysv tcval i).flags = SLC_NOSUPPORT ∧ acks (slcInit sysv tcval i).mylevel = false := by
  unfold slcInit
  split_ifs
  · exact init_spec _ (by decide)
  · exact init_spec _ (by decide)
  · refine ⟨(init_spec (tcval i) (show acks (SLC_VARIABLE ||| 0) = false by decide)).1, ?_⟩
    show acks SLC_CANTCHANGE = false
    decide
  · exact init_spec _ (by decide)
  · exact init_spec _ (by decide)
  · exact init_spec _ (by decide)
  · refine ⟨rfl, ?_⟩
    decide

variable {flag : Byte}

theorem fixed_setval (h : level flag = SLC_VARIABLE) (c : Byte) :
    Fixed ⟨⟨flag, c⟩, ⟨SLC_NOSUPPORT, 0⟩, some c⟩ :=
  ⟨fun _ _ => h, fun h => (nomatch h), fun h' => absurd (h.symm.trans h') (by decide)⟩

theorem fixed_defval (h : level flag = SLC_DEFAULT ∨ level flag = SLC_NOSUPPORT) (c : Byte) :
    Fixed ⟨⟨flag, c⟩, ⟨SLC_NOSUPPORT, 0⟩, none⟩ :=
  ⟨fun _ h => (nomatch h), fun _ => h, fun _ => by show level SLC_NOSUPPORT = _; decide⟩

theorem fixed_getSlcDefaults (tty : Byte → Byte) (i : Byte) :
    Fixed (getSlcDefaults (spcset tty) i) := by
  unfold getSlcDefaults spcset
  split_ifs
  · exact fixed_setval (by decide) _
  · exact fixed_setval (by decide) _
  · exact fixed_setval (by decide) _
  · exact fixed_setval (by decide) _
  · exact fixed_defval (by decide) _
  · exact fixed_defval (by decide) _

section
variable (vdisable : Byte) (sysv : Bool) (tcval : Byte → Option Byte) (tty tty' : Byte → Byte)
  {i : Byte} (hi : i ∈ funcs)
include hi

omit hi in
theorem inv_silent : Inv (rules vdisable i (slcInit sysv tcval i).mylevel)
    (Quiet (slcInit sysv tcval i).mylevel) Fixed (Request (slcInit sysv tcval i).mylevel)
    ⟨slcInit sysv tcval i, getSlcDefaults (spcset tty') i, [], [], 0⟩ := by
  obtain ⟨hflags, hacks⟩ := slcInit_spec sysv tcval i
  refine ⟨⟨rfl, by rw [hflags]; rfl, by rw [hflags]; exact UInt8.zero_le⟩,
    fixed_getSlcDefaults tty' i,
    fun u hu => (nomatch hu), fun d hd => (nomatch hd), fun _ => .inl ?_⟩
  unfold rules getSlcDefaults
  dsimp only
  rw [hflags, view_nosupport (by decide), view_nosupport (by decide)]

theorem start_spec (exports : Bool) :
    Good (start vdisable sysv exports tcval tty tty') ∧
      Sound vdisable i (slcInit sysv tcval i).mylevel (start vdisable sysv exports tcval tty tty') ∧
      cost vdisable i (slcInit sysv tcval i).mylevel
      (start vdisable sysv exports tcval tty tty') ≤ 5 := by
  have hsilent := inv_silent (i := i) vdisable sysv tcval tty'
  have hacks := (slcInit_spec sysv tcval i).2
  cases exports with
  | true =>
    have hclean : Clean (slcExport vdisable tty (slcInit sysv tcval)).2 :=
      clean_of_funcs (map_func_funcs (fun i => Spc.export vdisable (tty i)) (slcInit sysv tcval))
    have hann := announces_export hacks vdisable hsilent.okC (tty i)
    obtain ⟨h1, h2⟩ := Prod.ext_iff.mp
      (feed_row (fun i => Spc.export vdisable (tty i)) hi (slcInit sysv tcval))
    have hentry : (slcExport vdisable tty (slcInit sysv tcval)).1 i = _ :=
      (if_pos hi).trans ((congrArg Spc.update h1).trans (update_not_acks hann.quiet.acks))
    have htalk : talk i (start vdisable sysv true tcval tty tty') = _ :=
      talk_fromClient
        (s := ⟨slcInit sysv tcval, ⟨getSlcDefaults (spcset tty'), none, true, [], false⟩,
        [], [], []⟩) (r := slcExport vdisable tty (slcInit sysv tcval))
        ((hclean.concerns_eq i).trans h2)
    rw [hentry] at htalk
    obtain ⟨h3, h4⟩ := sound_announces hi hsilent hann
    refine ⟨⟨rfl, fun l hl => (nomatch hl), fun l hl => ?_⟩, ?_, ?_⟩
    · rw [mem_post hl]
      exact hclean.tidy
    · unfold Sound
      exact htalk ▸ h3
    · unfold cost
      refine le_trans (htalk ▸ h4) ?_
      show 0 + 4 ≤ 5
      decide
  | false =>
    have htalk : talk i (start vdisable sysv false tcval tty tty') = _ :=
      talk_fromClient
        (s := ⟨slcInit sysv tcval, ⟨getSlcDefaults (spcset tty'), none, true, [], false⟩,
        [], [], []⟩) (r := (slcInit sysv tcval, [⟨0, SLC_DEFAULT, 0⟩]))
        (u := some ⟨0, SLC_DEFAULT, 0⟩) (by simp [concerns])
    refine ⟨⟨rfl, fun l hl => (nomatch hl), fun l hl => ?_⟩, ?_, ?_⟩
    · rw [mem_post (l := [⟨0, SLC_DEFAULT, 0⟩]) hl]
      exact ⟨by decide, fun _ => le_rfl⟩
    · unfold Sound
      rw [htalk]
      refine hsilent.ask hsilent.okC ?_ (.inr ⟨rfl, rfl⟩)
      rintro u hu
      cases hu
      exact .inl rfl
    · unfold cost
      rw [htalk, cost_ask]
      exact le_rfl

/-- **The negotiation of the special characters settles.** -/
theorem slc_settles (exports : Bool) (l : List Op) :
    let s := run (step vdisable) (start vdisable sysv exports tcval tty tty') l
    (s.sent.filter (about i)).length ≤ 5 + 4 * l.countP Op.checks ∧
      (s.toClient = [] → s.toServer = [] →
        level (s.client i).flags = level (s.server.tab i).current.flag ∧
          (level (s.client i).flags ≠ SLC_NOSUPPORT →
            (s.client i).val = (s.server.tab i).current.val)) := by
  obtain ⟨hg, h, hcost⟩ := start_spec vdisable sysv tcval tty tty' hi exports
  obtain ⟨-, hsound, hcost'⟩ := keeps_run hi (slcInit_spec sysv tcval i).2 l hg h
  intro s
  constructor
  · have hle : (s.sent.filter (about i)).length ≤ (s.sent.filter (concerns i)).length := by
      refine List.Sublist.length_le (monotone_filter_right _ fun t ht => ?_)
      simp only [about, decide_eq_true_eq] at ht
      simp [concerns, ht]
    exact hle.trans (sent_le_cost.trans (hcost'.trans (Nat.add_le_add_right hcost _)))
  · intro h1 h2
    have hview := Inv.agree hsound (by simp [talk, s, h1]) (by simp [talk, s, h2])
    change view (s.client i).flags (s.client i).val =
      view (s.server.tab i).current.flag (s.server.tab i).current.val at hview
    unfold view at hview
    split_ifs at hview with h3 h4
    · exact ⟨h3.trans h4.symm, fun h => absurd h3 h⟩
    · obtain ⟨h5, h6⟩ := Prod.mk.inj (Option.some.inj hview)
      exact ⟨h5, fun _ => h6⟩

end

/-- The interrupt character, exported by the client, which is changed at the server and, before that
is known, at the client. -/
theorem slc_settles_interrupt :
    let l : List Op := [.serverChar SLC_IP 4, .checkSlc, .clientChar SLC_IP 5, .slcCheck, .slc,
      .optSlc fun _ => 4, .slc, .optSlc fun _ => 4, .slc, .optSlc fun _ => 5]
    let s := run (step 0) (start 0 false true (fun _ => some 3) (fun _ => 3) fun _ => 3) l
    (s.sent.filter (about SLC_IP)).length ≤ 13 ∧
      level (s.client SLC_IP).flags = level (s.server.tab SLC_IP).current.flag := by
  intro l s
  have h :=
    slc_settles 0 false (fun _ => some 3) (fun _ => 3) (fun _ => 3)
    (show SLC_IP ∈ funcs by decide) true l
  exact ⟨h.1, (h.2 (by decide +kernel) (by decide +kernel)).1⟩

end Inetutils.Session.Characters
