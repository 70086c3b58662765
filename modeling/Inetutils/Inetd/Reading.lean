import Inetutils.Inetd.Getconfigent

/-! # What the files are read as

What `getconfigent` reads of the files of a configuration, with the two nodes that outlive a line:
`serv_node`, and the default address in `global_serv_node`, which outlives the reading of the
configuration too. Where neither gets into the way of a line (`Steady`), a reading gives what the
files say (`meantFiles`), and the next one gives it again. -/

namespace Inetutils.Inetd.Reading

open Table hiding State
open Lines Getconfigent Telnetd.Argcv

/-! ### The lines -/

/-- What a line is: passed over, the empty word, a default address, or the words of an entry. -/
inductive Item
  | skip
  | empty
  | default (node : Text)
  | entry (words : List Text)
  deriving DecidableEq

def item (line : Text) : Item :=
  if line = [] ∨ line.head? = some 35 then .skip
  else
    match argcvGet line [] with
    | [] => .skip
    | [word] => if word = [] then .empty else if word.getLast? = some 58 then .default word.dropLast
      else .skip
    | words => if words.length < fieldsMin then .skip else .entry words

def fileItems (file : Text) : List Item := (getlines file).map item

def items (files : List (Option Text)) : List Item := (files.filterMap id).flatMap fileItems

/-! ### What is read -/

/-- `serv_node` and `global_serv_node` -/
structure Names where
  servNode : Option Text
  globalNode : Global
  deriving DecidableEq

def Names.init : Names := ⟨none, .unset⟩

def Names.node (n : Names) (words : List Text) : Option Text :=
  readNode words { Getconfigent.State.init with servNode := n.servNode, globalNode := n.globalNode }

/-- The loop of `getconfigent` at a line: the line that is entered for it, if there is one; nothing
at all where memory is used that is freed, or in front of a word. -/
def readItem (ipv6 : Bool) (n : Names) : Item → Option (Option Line × Names)
  | .skip => some (none, n)
  | .empty => none
  | .default node =>
    if n.globalNode = .freed then none
    else if node = [42] then
      some (none, ⟨n.servNode, if n.globalNode = .unset then .unset else .freed⟩)
    else some (none, ⟨n.servNode, .set node⟩)
  | .entry words =>
    if (splitNode (word words 0)).1 = none ∧ n.globalNode = .freed then none
    else
      match lineConf words ipv6 with
      | none => some (none, ⟨n.node words, n.globalNode⟩)
      | some conf => some (some ⟨conf, n.node words⟩, ⟨none, n.globalNode⟩)

def readItems (ipv6 : Bool) : List Item → Names → Option (List Line × Names)
  | [], n => some ([], n)
  | i :: l, n =>
    (readItem ipv6 n i).bind fun r => (readItems ipv6 l r.2).map fun r' =>
      (r.1.toList ++ r'.1, r'.2)

def readFiles (ipv6 : Bool) :
    List (Option Text) → Names → Option (List (Option (List Line)) × Names)
  | [], n => some ([], n)
  | none :: files, n => (readFiles ipv6 files n).map fun r => (none :: r.1, r.2)
  | some file :: files, n =>
    -- an entry with nothing but the node that is left over: `getpwnam (NULL)`
    if n.servNode ≠ none then none
    else (readItems ipv6 (fileItems file) n).bind fun r =>
      (readFiles ipv6 files r.2).map fun r' => (some r.1 :: r'.1, r'.2)

/-! ### The step of `getconfigent` -/

def names (s : Getconfigent.State) : Names := ⟨s.servNode, s.globalNode⟩

/-- What a line leaves of the program. -/
def Left (lines : List Text) (s : Getconfigent.State) : Option (Option Line × Names) → Prop
  | none => s.phase = .undefined
  | some (none, n) => s.phase = .reading lines ∧ names s = n
  | some (some l, n) => ∃ words,
    let r := nextNodeSep (servOf words l.toConf) l.servNode
    s.phase = .returned r.1 lines ∧ names s = ⟨r.2, n.globalNode⟩

variable {lines : List Text} {s : Getconfigent.State}

theorem addrLine_left (ipv6 : Bool) (hs : s.phase = .reading lines) (node : Text) :
    Left lines (addrLine s node) (readItem ipv6 (names s) (.default node)) := by
  have hn : (names s).globalNode = s.globalNode := rfl
  rw [readItem, addrLine, hn]
  split_ifs
  · rfl
  · exact ⟨hs, rfl⟩
  · exact ⟨hs, rfl⟩
  · exact ⟨hs, rfl⟩

theorem entryLine_left (ipv6 : Bool) (hs : s.phase = .reading lines) (words : List Text) :
    Left lines (entryLine ipv6 words lines s) (readItem ipv6 (names s) (.entry words)) := by
  have hn : (names s).globalNode = s.globalNode := rfl
  rw [readItem, entryLine, hn]
  split_ifs
  · rfl
  · cases lineConf words ipv6 with
    | none => exact ⟨hs, rfl⟩
    | some conf => exact ⟨words, rfl, rfl⟩

/-- **A line**, as the reading step by step has it. -/
theorem readLine_left (ipv6 : Bool) (line : Text) (lines : List Text) (s : Getconfigent.State) :
    Left lines (readLine ipv6 line lines s) (readItem ipv6 (names s) (item line)) := by
  have hs : (s.go (.reading lines)).phase = .reading lines := rfl
  have hn : names s = names (s.go (.reading lines)) := rfl
  unfold item readLine
  rw [hn]
  dsimp only
  generalize s.go (.reading lines) = s at hs
  split_ifs with hblank
  · exact ⟨hs, rfl⟩
  rcases argcvGet line [] with - | ⟨word, - | ⟨word', words⟩⟩
  · exact ⟨hs, rfl⟩
  · dsimp only
    split_ifs
    · rfl
    · exact addrLine_left ipv6 hs word.dropLast
    · exact ⟨hs, rfl⟩
  · dsimp only
    split_ifs
    · exact ⟨hs, rfl⟩
    · exact entryLine_left ipv6 hs (word :: word' :: words)

/-! ### What the files say -/

def meantItem (ipv6 : Bool) (addr : Option Text) : Item → Option Line × Option Text
  | .default node => (none, if node = [42] then none else some node)
  | .entry words => (meant words ipv6 addr, addr)
  | _ => (none, addr)

def meantItems (ipv6 : Bool) : List Item → Option Text → List Line × Option Text
  | [], addr => ([], addr)
  | i :: l, addr =>
    let r := meantItems ipv6 l (meantItem ipv6 addr i).2
    ((meantItem ipv6 addr i).1.toList ++ r.1, r.2)

/-- A default address is in effect until the next one, or the end of the configuration. -/
def meantFrom (ipv6 : Bool) : List (Option Text) → Option Text → List (Option (List Line))
  | [], _ => []
  | none :: files, addr => none :: meantFrom ipv6 files addr
  | some file :: files, addr =>
    let r := meantItems ipv6 (fileItems file) addr
    some r.1 :: meantFrom ipv6 files r.2

def meantFiles (ipv6 : Bool) (files : List (Option Text)) : List (Option (List Line)) :=
  meantFrom ipv6 files none

/-! ### Where a reading gives what the files say -/

def ownNode (words : List Text) : Option Text := (splitNode (word words 0)).1

def Item.isDefault : Item → Bool
  | .default _ => true
  | _ => false

structure Quiet (n : Names) (l : List Item) : Prop where
  servNode : n.servNode = none
  empty : .empty ∉ l

/-- There is no default address; a line that is passed over leaves no node. -/
structure Unnamed (ipv6 : Bool) (addr : Option Text) (n : Names) (l : List Item) :
    Prop extends Quiet n l where
  unset : n.globalNode = .unset
  addr : addr = none
  defaults : ∀ node, .default node ∈ l → node = [42]
  passed : ∀ words, .entry words ∈ l → lineConf words ipv6 = none → ownNode words = none ∨
    ownNode words = some [42]

/-- No default address is taken back, and a line that needs one is behind the first; or that in
effect is the one that is kept. A line that is passed over leaves no node. -/
structure Named (ipv6 : Bool) (addr : Option Text) (n : Names) (l : List Item) :
    Prop extends Quiet n l where
  kept : n.globalNode ≠ .freed
  defaults : .default [42] ∉ l
  first : (∃ node, n.globalNode = .set node ∧ addr = some node) ∨
    ∀ words, .entry words ∈ l.takeWhile (¬ ·.isDefault) → ownNode words ≠ none
  passed : ∀ words, .entry words ∈ l → lineConf words ipv6 = none → ownNode words = some [42]

/-- **What a reading has to meet**, with what is kept from before. -/
def Steady (ipv6 : Bool) (n : Names) (l : List Item) : Prop :=
  Unnamed ipv6 none n l ∨ Named ipv6 none n l

section
variable {ipv6 : Bool} {addr : Option Text} {n : Names} {i : Item} {l : List Item}
    {words : List Text}

theorem Quiet.tail (h : Quiet n (i :: l)) {n' : Names} (hn : n'.servNode = none) : Quiet n' l :=
  ⟨hn, fun hi => h.empty (List.mem_cons_of_mem _ hi)⟩

theorem readItem_default {node : Text} (hf : n.globalNode ≠ .freed)
    (h42 : node = [42] → n.globalNode = .unset) :
    readItem ipv6 n (.default node) =
    some (none, ⟨n.servNode, if node = [42] then .unset else .set node⟩) := by
  rw [readItem, if_neg hf]
  split_ifs with h h'
  · rfl
  · exact absurd (h42 h) h'
  · rfl

theorem node_eq (hs : n.servNode = none)
    (h : ownNode words = none →
      n.globalNode = .unset ∧ addr = none ∨ ∃ node, n.globalNode = .set node ∧ addr = some node) :
    n.node words = lineNode words addr := by
  obtain ⟨servNode, globalNode⟩ := n
  obtain rfl : servNode = none := hs
  unfold ownNode at h
  unfold Names.node readNode lineNode
  rcases hown : (splitNode (word words 0)).1 with - | node
  · obtain ⟨rfl, rfl⟩ | ⟨node, rfl, rfl⟩ := h hown
    · rfl
    · rfl
  · rfl

/-- An entry whose node is the one that is meant; where it is passed over, it leaves none. -/
theorem readItem_entry (hf : n.globalNode ≠ .freed) (hs : n.servNode = none)
    (hnode : n.node words = lineNode words addr)
    (hpassed : lineConf words ipv6 = none → lineNode words addr = none) :
    readItem ipv6 n (.entry words) = some (meant words ipv6 addr, n) := by
  have hfreed : ¬ ((splitNode (word words 0)).1 = none ∧ n.globalNode = .freed) := fun h => hf h.2
  rw [readItem, if_neg hfreed, meant, hnode]
  obtain ⟨servNode, globalNode⟩ := n
  obtain rfl : servNode = none := hs
  rcases hc : lineConf words ipv6 with - | conf
  · exact congrArg (fun node => some (none, Names.mk node globalNode)) (hpassed hc)
  · rfl

theorem lineNode_star (h : ownNode words = some [42]) : lineNode words addr = none := by
  unfold ownNode at h
  rw [lineNode, h]
  rfl

theorem Unnamed.tail (h : Unnamed ipv6 addr n (i :: l)) : Unnamed ipv6 addr n l where
  toQuiet := h.toQuiet.tail h.servNode
  unset := h.unset
  addr := h.addr
  defaults node hi := h.defaults node (List.mem_cons_of_mem _ hi)
  passed words hi := h.passed words (List.mem_cons_of_mem _ hi)

theorem Unnamed.step (h : Unnamed ipv6 addr n (i :: l)) :
    ∃ n', readItem ipv6 n i = some ((meantItem ipv6 addr i).1, n') ∧
    Unnamed ipv6 (meantItem ipv6 addr i).2 n' l := by
  have hf : n.globalNode ≠ .freed := h.unset ▸ Global.noConfusion
  cases i with
  | skip => exact ⟨n, rfl, h.tail⟩
  | empty => exact absurd List.mem_cons_self h.empty
  | default node =>
    have h42 : node = [42] := h.defaults node List.mem_cons_self
    refine ⟨_, readItem_default hf fun _ => h.unset, ?_⟩
    have ht := h.tail
    exact ⟨⟨h.servNode, ht.empty⟩, if_pos h42, if_pos h42, ht.defaults, ht.passed⟩
  | entry words =>
    refine ⟨n, readItem_entry hf h.servNode ?_ fun hc => ?_, h.tail⟩
    · exact node_eq h.servNode fun _ => .inl ⟨h.unset, h.addr⟩
    · rcases h.passed words List.mem_cons_self hc with hown | hown
      · unfold ownNode at hown
        rw [lineNode, hown, h.addr]
      · exact lineNode_star hown

theorem Named.tail (h : Named ipv6 addr n (i :: l)) (hi : i.isDefault = false) :
    Named ipv6 addr n l where
  toQuiet := h.toQuiet.tail h.servNode
  kept := h.kept
  defaults hl := h.defaults (List.mem_cons_of_mem _ hl)
  first := h.first.imp_right fun hw words hl => hw words (by
    rw [List.takeWhile_cons_of_pos (by simp [hi])]
    exact List.mem_cons_of_mem _ hl)
  passed words hl := h.passed words (List.mem_cons_of_mem _ hl)

theorem Named.step (h : Named ipv6 addr n (i :: l)) :
    ∃ n', readItem ipv6 n i = some ((meantItem ipv6 addr i).1, n') ∧
    Named ipv6 (meantItem ipv6 addr i).2 n' l := by
  cases i with
  | skip => exact ⟨n, rfl, h.tail rfl⟩
  | empty => exact absurd List.mem_cons_self h.empty
  | default node =>
    have h42 : node ≠ [42] := fun h42 => h.defaults (h42 ▸ List.mem_cons_self)
    refine ⟨_, readItem_default h.kept fun h' => absurd h' h42, ?_⟩
    have hset : (if node = [42] then Global.unset else .set node) = .set node := if_neg h42
    exact
      { toQuiet := h.toQuiet.tail h.servNode
        kept := ne_of_eq_of_ne hset Global.noConfusion
        defaults := fun hl => h.defaults (List.mem_cons_of_mem _ hl)
        first := .inl ⟨node, hset, if_neg h42⟩
        passed := fun words hl => h.passed words (List.mem_cons_of_mem _ hl) }
  | entry words =>
    refine ⟨n, readItem_entry h.kept h.servNode (node_eq h.servNode fun hown => .inr ?_) fun hc =>
      ?_, h.tail rfl⟩
    · exact h.first.resolve_right fun hw => hw words (by
        rw [List.takeWhile_cons_of_pos rfl]
        exact List.mem_cons_self) hown
    · exact lineNode_star (h.passed words List.mem_cons_self hc)

end

/-! ### A reading -/

section
variable {ipv6 : Bool} {I : Option Text → Names → List Item → Prop}
  (hstep : ∀ {addr n i l}, I addr n (i :: l) →
    ∃ n', readItem ipv6 n i = some ((meantItem ipv6 addr i).1, n') ∧
    I (meantItem ipv6 addr i).2 n' l)
include hstep

theorem readItems_of_step {l l' : List Item} {addr : Option Text} {n : Names}
    (h : I addr n (l ++ l')) :
    ∃ n', readItems ipv6 l n = some ((meantItems ipv6 l addr).1, n') ∧
    I (meantItems ipv6 l addr).2 n' l' := by
  induction l generalizing addr n with
  | nil => exact ⟨n, rfl, h⟩
  | cons i l ih =>
    obtain ⟨n₁, h₁, hi⟩ := hstep h
    obtain ⟨n₂, h₂, hl⟩ := ih hi
    exact ⟨n₂, by rw [readItems, h₁, Option.bind_some, h₂]; rfl, hl⟩

theorem readFiles_of_step (hq : ∀ {addr n l}, I addr n l → n.servNode = none)
    {files : List (Option Text)}
    {addr : Option Text} {n : Names} (h : I addr n (items files)) :
    ∃ n' addr', readFiles ipv6 files n = some (meantFrom ipv6 files addr, n') ∧ I addr' n' [] := by
  induction files generalizing addr n with
  | nil => exact ⟨n, addr, rfl, h⟩
  | cons file files ih =>
    rcases file with - | file
    · obtain ⟨n', addr', hr, hi⟩ := ih h
      exact ⟨n', addr', by rw [readFiles, hr]; rfl, hi⟩
    · have hi : I addr n (fileItems file ++ items files) := h
      obtain ⟨n₁, h₁, hl⟩ := readItems_of_step hstep hi
      obtain ⟨n₂, addr', h₂, hi⟩ := ih hl
      refine ⟨n₂, addr', ?_, hi⟩
      rw [readFiles, if_neg (not_not.2 (hq h)), h₁, Option.bind_some, h₂]
      rfl

end

/-- **A reading** gives what the files say, and leaves what is as good for the next one. -/
theorem Steady.readFiles {ipv6 : Bool} {n : Names} {files : List (Option Text)}
    (h : Steady ipv6 n (items files)) :
    ∃ n', readFiles ipv6 files n = some (meantFiles ipv6 files, n') ∧
    Steady ipv6 n' (items files) := by
  rcases h with h | h
  · obtain ⟨n', addr, hr, hi⟩ := readFiles_of_step Unnamed.step (fun h => h.servNode) h
    exact ⟨n', hr, .inl ⟨⟨hi.servNode, h.empty⟩, hi.unset, rfl, h.defaults, h.passed⟩⟩
  · obtain ⟨n', addr, hr, hi⟩ := readFiles_of_step Named.step (fun h => h.servNode) h
    refine ⟨n', hr, .inr ⟨⟨hi.servNode, h.empty⟩, hi.kept, h.defaults, .inr ?_, h.passed⟩⟩
    exact h.first.resolve_left fun ⟨node, _, haddr⟩ => Option.some_ne_none node haddr.symm

end Inetutils.Inetd.Reading
