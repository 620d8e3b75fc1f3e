import Mathlib.Data.List.Nodup
import SNetRts.Lib.Run

/-!
# Hash tables of pointers

`front/xhashptr.c`: a table of chains of nodes, in each of which are the nodes whose key has its place as a hash. Nodes
that are taken out go to a free list, which is cut when it becomes too long for the table. A table that resizes itself
moves all nodes when it holds too many of them.

Keys and values are pointers; the content of free nodes does not matter.
-/

namespace SNet.Front

open Lib List

/-- A pointer, `NULL` being 0. -/
abbrev Ptr := Nat

def NULL : Ptr := 0

/-- `hash_node_t` -/
structure HashNode where
  key : Ptr
  val : Ptr

abbrev HashChain := List HashNode

/-- `hash_ptab_t` -/
structure HashPtab where
  power : Nat
  prime : Nat
  count : Nat
  freed : Nat
  autoResize : Bool
  free : HashChain
  tab : List HashChain

namespace HashPtab

def FIRST_POWER : Nat := 6

def LAST_POWER : Nat := 30

/-- The primes of `ideal_primes`, from that for `FIRST_POWER` on. -/
def idealPrimes : List Nat := [97, 193, 389, 769, 1543, 3079, 6151, 12289, 24593, 49157, 98317, 196613, 393241, 786433,
  1572869, 3145739, 6291469, 12582917, 25165843, 50331653, 100663319, 201326611, 402653189, 805306457, 1610612741]

def limit (power : Nat) : Nat :=
  if power < FIRST_POWER then FIRST_POWER else if power > LAST_POWER then LAST_POWER else power

def idealPrime (power : Nat) : Nat := idealPrimes.getD (power - FIRST_POWER) 0

/-- `SNetHashPtrTabCreate` -/
def create (power : Nat) (autoResize : Bool) : HashPtab where
  power := limit power
  prime := idealPrime (limit power)
  count := 0
  freed := 0
  autoResize := autoResize
  free := []
  tab := replicate (idealPrime (limit power)) []

/-- `tab[HASH_PTR(key, prime)]` -/
def chain (prime : Nat) (tab : List HashChain) (key : Ptr) : HashChain := tab.getD (key % prime) []

def link (prime : Nat) (tab : List HashChain) (node : HashNode) : List HashChain :=
  tab.set (node.key % prime) (node :: chain prime tab node.key)

/-- `SNetHashPtrTabResize` -/
def resize (t : HashPtab) (newPower : Nat) : HashPtab :=
  let newPower := limit newPower
  if newPower ≠ t.power then
    let newPrime := idealPrime newPower
    { t with
      power := newPower
      prime := newPrime
      tab := t.tab.foldl (fun tab chain => chain.foldl (link newPrime) tab) (replicate newPrime []) }
  else t

/-- `2 << power`, an `int`: for a power of 30 it is negative, which is a large `size_t`. -/
def capacity (power : Nat) : Nat := ((2#32 <<< power).signExtend 64).toNat

/-- `SNetHashPtrStore` -/
def store (t : HashPtab) (key val : Ptr) : Outcome HashPtab :=
  if (chain t.prime t.tab key).head?.map HashNode.key = some key then .fault
  else
    let t := if t.free = [] then t else { t with free := t.free.tail, freed := t.freed - 1 }
    let t := { t with tab := link t.prime t.tab ⟨key, val⟩, count := t.count + 1 }
    .done (if t.autoResize ∧ capacity t.power < t.count then t.resize (3 + t.power) else t)

/-- `SNetHashPtrLookup` -/
def lookup (t : HashPtab) (key : Ptr) : Ptr :=
  match (chain t.prime t.tab key).find? (·.key = key) with
  | some node => node.val
  | none => NULL

def unlink (key : Ptr) : HashChain → Option (HashNode × HashChain)
  | [] => none
  | node :: rest => if node.key = key then some (node, rest) else (unlink key rest).map fun r => (r.1, node :: r.2)

def cut (limit : Nat) : HashChain → Nat → HashChain × Nat
  | [], freed => ([], freed)
  | node :: free, freed => if limit < freed then cut limit free (freed - 1) else (node :: free, freed)

/-- `SNetHashPtrRemove`, with the value. -/
def remove (t : HashPtab) (key : Ptr) : Outcome (Ptr × HashPtab) :=
  (Outcome.ofOption (unlink key (chain t.prime t.tab key))).bind fun (node, rest) =>
    let t :=
      { t with
        tab := t.tab.set (key % t.prime) rest
        free := node :: t.free
        freed := t.freed + 1
        count := t.count - 1 }
    if t.prime < 4 * t.freed then
      let r := cut (t.prime / 8) t.free t.freed
      .done (node.val, { t with free := r.1, freed := r.2 })
    else .done (node.val, t)

/-- The key of the first node of the first chain that is not empty. -/
def firstKey : List HashChain → Ptr
  | [] => NULL
  | [] :: tab => firstKey tab
  | (node :: _) :: _ => node.key

/-- `SNetHashPtrFirst` -/
def first (t : HashPtab) : Ptr := firstKey t.tab

/-- `SNetHashPtrNext` -/
def next (t : HashPtab) (key : Ptr) : Outcome Ptr :=
  match (chain t.prime t.tab key).dropWhile (·.key ≠ key) with
  | [] => .fault
  | _ :: node :: _ => .done node.key
  | [_] => .done (firstKey (t.tab.drop (1 + key % t.prime)))

/-! ## Runs -/

/-- A table and what has been stored in it and not removed. -/
structure Run where
  code : HashPtab
  bindings : List HashNode
  /-- The table has been resized from outside since a node was removed. -/
  resized : Bool

inductive Op where
  | store (key val : Ptr)
  | remove (key : Ptr)
  | resize (power : Nat)

def step (r : Run) : Op → Outcome Run
  | .store key val => (r.code.store key val).bind fun t => .done { r with code := t, bindings := ⟨key, val⟩ :: r.bindings }
  | .remove key => (r.code.remove key).bind fun (_, t) => .done ⟨t, r.bindings.filter (·.key ≠ key), false⟩
  | .resize power => .done { r with code := r.code.resize power, resized := true }

/-- Keys are stored that are absent, and removed that are present. -/
def ok (r : Run) : Op → Prop
  | .store key _ => key ∉ r.bindings.map HashNode.key
  | .remove key => key ∈ r.bindings.map HashNode.key
  | .resize _ => True

instance (r : Run) : (op : Op) → Decidable (ok r op)
  | .store key _ => inferInstanceAs (Decidable (key ∉ r.bindings.map HashNode.key))
  | .remove key => inferInstanceAs (Decidable (key ∈ r.bindings.map HashNode.key))
  | .resize _ => isTrue trivial

def init (power : Nat) (autoResize : Bool) : Run := ⟨create power autoResize, [], false⟩

/-- The table is a finite map, which can be gone through. -/
structure Holds (r : Run) : Prop where
  lookup : ∀ node ∈ r.bindings, r.code.lookup node.key = node.val
  absent : ∀ key ∉ r.bindings.map HashNode.key, r.code.lookup key = NULL
  count : r.code.count = r.bindings.length
  freed : r.code.freed = r.code.free.length
  bound : r.resized = false → 4 * r.code.freed ≤ r.code.prime
  keys : ∃ keys : List Ptr, keys.Nodup ∧ (∀ key, key ∈ keys ↔ key ∈ r.bindings.map HashNode.key) ∧
    r.code.first = keys.headD NULL ∧
    ∀ pre key post, keys = pre ++ key :: post → r.code.next key = .done (post.headD NULL)

/-! ## Chains -/

variable {t : HashPtab} {tab : List HashChain} {prime key n : Nat} {node : HashNode} {nodes : List HashNode}

theorem limit_lt (power : Nat) : limit power - FIRST_POWER < 25 := by
  unfold limit FIRST_POWER LAST_POWER
  split
  · decide
  · split <;> omega

theorem limit_mono {power power' : Nat} (h : power ≤ power') : limit power ≤ limit power' := by
  unfold limit FIRST_POWER LAST_POWER
  split <;> split <;> grind

theorem limit_limit (power : Nat) : limit (limit power) = limit power := by
  unfold limit FIRST_POWER LAST_POWER
  grind

theorem prime_pos (power : Nat) : 0 < idealPrime (limit power) := by
  have hall : ∀ i < 25, 0 < idealPrimes.getD i 0 := by decide
  exact hall _ (limit_lt power)

theorem prime_mono {power power' : Nat} (h : power ≤ power') : idealPrime (limit power) ≤ idealPrime (limit power') := by
  have hall : ∀ j < 25, ∀ i ≤ j, idealPrimes.getD i 0 ≤ idealPrimes.getD j 0 := by decide
  exact hall _ (limit_lt power') _ (Nat.sub_le_sub_right (limit_mono h) _)

/-- Every node is in the chain of its key. -/
structure Placed (prime : Nat) (tab : List HashChain) : Prop where
  pos : 0 < prime
  length : tab.length = prime
  hash : ∀ (i : Nat) chain, tab[i]? = some chain → ∀ node ∈ chain, node.key % prime = i

theorem Placed.get (h : Placed prime tab) (key : Ptr) : tab[key % prime]? = some (chain prime tab key) := by
  have hlt : key % prime < tab.length := by
    rw [h.length]
    exact Nat.mod_lt _ h.pos
  rw [chain, getD_eq_getElem?_getD, getElem?_eq_getElem hlt, Option.getD_some]

theorem Placed.split (h : Placed prime tab) (key : Ptr) : ∃ before after,
    tab = before ++ chain prime tab key :: after ∧ before.length = key % prime ∧
      ∀ c, tab.set (key % prime) c = before ++ c :: after := by
  obtain ⟨hlt, hget⟩ := List.getElem?_eq_some_iff.1 (h.get key)
  have hlen : (tab.take (key % prime)).length = key % prime := length_take_of_le (Nat.le_of_lt hlt)
  have hsplit : tab = tab.take (key % prime) ++ chain prime tab key :: tab.drop (key % prime + 1) := by
    rw [← hget, ← drop_eq_getElem_cons hlt, take_append_drop]
  refine ⟨_, _, hsplit, hlen, fun c => ?_⟩
  rw [set_eq_take_append_cons_drop, if_pos hlt]

theorem Placed.mem_chain (h : Placed prime tab) (hnode : node ∈ tab.flatten) : node ∈ chain prime tab node.key := by
  obtain ⟨c, hc, hnode⟩ := mem_flatten.1 hnode
  obtain ⟨i, hi⟩ := mem_iff_getElem?.1 hc
  rw [chain, h.hash i c hi node hnode, getD_eq_getElem?_getD, hi]
  exact hnode

theorem Placed.set (h : Placed prime tab) {c : HashChain} (hc : ∀ node ∈ c, node.key % prime = key % prime) :
    Placed prime (tab.set (key % prime) c) := by
  refine ⟨h.pos, length_set.trans h.length, fun i chain hi => ?_⟩
  rw [getElem?_set] at hi
  split at hi
  next heq =>
    split at hi <;> cases hi
    exact heq ▸ hc
  next => exact h.hash i chain hi

theorem Placed.link (h : Placed prime tab) (node : HashNode) :
    Placed prime (link prime tab node) ∧ (link prime tab node).flatten.Perm (node :: tab.flatten) := by
  obtain ⟨before, after, hsplit, -, hset⟩ := h.split node.key
  constructor
  · apply h.set
    rintro x hx
    rcases mem_cons.1 hx with rfl | hx
    · rfl
    · exact h.hash _ _ (h.get node.key) x hx
  · rw [HashPtab.link, hset]
    conv_rhs => rw [hsplit]
    rw [flatten_append, flatten_cons, flatten_append, flatten_cons, cons_append]
    exact perm_middle

theorem placed_replicate (hpos : 0 < prime) : Placed prime (replicate prime []) := by
  refine ⟨hpos, length_replicate, fun i chain hi node hnode => ?_⟩
  rw [eq_of_mem_replicate (mem_of_getElem? hi)] at hnode
  cases hnode

theorem flatten_replicate_nil : (replicate n ([] : HashChain)).flatten = [] := by
  rw [flatten_eq_nil_iff]
  exact fun c hc => eq_of_mem_replicate hc

theorem Placed.links (h : Placed prime tab) (nodes : List HashNode) :
    Placed prime (nodes.foldl (HashPtab.link prime) tab) ∧
      (nodes.foldl (HashPtab.link prime) tab).flatten.Perm (nodes ++ tab.flatten) := by
  induction nodes generalizing tab with
  | nil => exact ⟨h, .refl _⟩
  | cons node nodes ih =>
    obtain ⟨hlink, hperm⟩ := h.link node
    obtain ⟨hplaced, hperms⟩ := ih hlink
    exact ⟨hplaced, (hperms.trans (hperm.append_left nodes)).trans perm_middle⟩

theorem unlink_eq {as bs : HashChain} (h : ∀ x ∈ as, x.key ≠ node.key) :
    unlink node.key (as ++ node :: bs) = some (node, as ++ bs) := by
  induction as with
  | nil => rw [nil_append, unlink, if_pos rfl, nil_append]
  | cons x as ih =>
    rw [cons_append, unlink, if_neg (h x mem_cons_self), ih fun y hy => h y (mem_cons_of_mem x hy)]
    rfl

theorem cut_spec (limit : Nat) (free : HashChain) : (cut limit free free.length).2 = (cut limit free free.length).1.length ∧
    (cut limit free free.length).2 ≤ limit := by
  induction free with
  | nil => exact ⟨rfl, Nat.zero_le _⟩
  | cons node free ih =>
    rw [cut]
    by_cases hlt : limit < (node :: free).length
    · rw [if_pos hlt]
      exact ih
    · rw [if_neg hlt]
      exact ⟨rfl, Nat.le_of_not_lt hlt⟩

theorem firstKey_eq (tab : List HashChain) : firstKey tab = (tab.flatten.map HashNode.key).headD NULL := by
  induction tab with
  | nil => rfl
  | cons c tab ih =>
    cases c with
    | nil => exact ih
    | cons node c => rfl

/-! ## What the functions do -/

/-- The nodes of the table are the bindings. -/
structure Inv (t : HashPtab) (bindings : List HashNode) : Prop where
  placed : Placed t.prime t.tab
  prime : t.prime = idealPrime (limit t.power)
  nodup : (bindings.map HashNode.key).Nodup
  nodes : t.tab.flatten.Perm bindings
  count : t.count = bindings.length
  freed : t.freed = t.free.length

variable {bindings : List HashNode}

theorem Inv.resize (h : Inv t bindings) (power : Nat) : Inv (t.resize power) bindings ∧
    (t.resize power).freed = t.freed ∧ (t.power ≤ power → t.prime ≤ (t.resize power).prime) := by
  rw [HashPtab.resize]
  by_cases hsame : limit power = t.power
  · rw [if_neg (not_not.2 hsame)]
    exact ⟨h, rfl, fun _ => Nat.le_refl _⟩
  · rw [if_pos hsame]
    obtain ⟨hplaced, hperm⟩ := (placed_replicate (prime_pos power)).links t.tab.flatten
    rw [foldl_flatten] at hplaced hperm
    rw [flatten_replicate_nil, append_nil] at hperm
    refine ⟨⟨hplaced, by rw [limit_limit], h.nodup, hperm.trans h.nodes, h.count, h.freed⟩, rfl, fun hle => ?_⟩
    rw [h.prime]
    exact prime_mono hle

theorem Inv.store (h : Inv t bindings) (val : Ptr) (hkey : key ∉ bindings.map HashNode.key) :
    ∃ t', t.store key val = .done t' ∧ Inv t' (⟨key, val⟩ :: bindings) ∧ t'.freed ≤ t.freed ∧ t.prime ≤ t'.prime := by
  have habsent : (chain t.prime t.tab key).head?.map HashNode.key ≠ some key := by
    intro heq
    obtain ⟨node, hnode, rfl⟩ := Option.map_eq_some_iff.1 heq
    apply hkey
    apply mem_map_of_mem
    apply h.nodes.mem_iff.1
    exact mem_flatten.2 ⟨_, mem_of_getElem? (h.placed.get node.key), mem_of_head? hnode⟩
  obtain ⟨hplaced, hperm⟩ := h.placed.link ⟨key, val⟩
  -- the free list, and the table before it is resized
  obtain ⟨free, freed, hfree, hle, htake⟩ : ∃ free freed, freed = length free ∧ freed ≤ t.freed ∧
      (if t.free = [] then t else { t with free := t.free.tail, freed := t.freed - 1 }) =
        { t with free := free, freed := freed } := by
    by_cases hnil : t.free = []
    · exact ⟨t.free, t.freed, h.freed, Nat.le_refl _, if_pos hnil⟩
    · exact ⟨_, _, by rw [length_tail, h.freed], Nat.sub_le _ _, if_neg hnil⟩
  have hstored : Inv { t with
      free := free, freed := freed, tab := HashPtab.link t.prime t.tab ⟨key, val⟩, count := t.count + 1 }
      (⟨key, val⟩ :: bindings) :=
    ⟨hplaced, h.prime, nodup_cons.2 ⟨hkey, h.nodup⟩, hperm.trans (h.nodes.cons _), congrArg (· + 1) h.count, hfree⟩
  rw [HashPtab.store, if_neg habsent, htake]
  dsimp only
  split
  · obtain ⟨hinv, hfreed, hprime⟩ := hstored.resize (3 + t.power)
    exact ⟨_, rfl, hinv, Nat.le_trans (Nat.le_of_eq hfreed) hle, hprime (Nat.le_add_left _ _)⟩
  · exact ⟨_, rfl, hstored, hle, Nat.le_refl _⟩

theorem Inv.at (h : Inv t bindings) (hnode : node ∈ bindings) : ∃ as bs, chain t.prime t.tab node.key = as ++ node :: bs ∧
    ∀ x ∈ as, x.key ≠ node.key := by
  obtain ⟨as, bs, hchain⟩ := append_of_mem (h.placed.mem_chain (h.nodes.mem_iff.2 hnode))
  refine ⟨as, bs, hchain, fun x hx heq => ?_⟩
  obtain ⟨before, after, hsplit, -⟩ := h.placed.split node.key
  have hnodup := ((h.nodes.map HashNode.key).nodup_iff.2 h.nodup)
  rw [hsplit, hchain, flatten_append, flatten_cons, map_append, map_append, map_append, map_cons] at hnodup
  have hpart := (nodup_append.1 (nodup_append.1 (nodup_append.1 hnodup).2.1).1).2.2
  exact hpart _ (mem_map_of_mem hx) _ mem_cons_self heq

theorem Inv.remove (h : Inv t bindings) (hkey : key ∈ bindings.map HashNode.key) : ∃ val t',
    t.remove key = .done (val, t') ∧ Inv t' (bindings.filter (·.key ≠ key)) ∧ 4 * t'.freed ≤ t'.prime := by
  obtain ⟨node, hnode, rfl⟩ := mem_map.1 hkey
  obtain ⟨as, bs, hchain, has⟩ := h.at hnode
  obtain ⟨before, after, hsplit, -, hset⟩ := h.placed.split node.key
  have hplaced : Placed t.prime (t.tab.set (node.key % t.prime) (as ++ bs)) := by
    apply h.placed.set
    intro x hx
    apply h.placed.hash _ _ (h.placed.get node.key)
    rw [hchain]
    rcases mem_append.1 hx with hx | hx
    · exact mem_append_left _ hx
    · exact mem_append_right _ (mem_cons_of_mem _ hx)
  have hperm : t.tab.flatten.Perm (node :: (t.tab.set (node.key % t.prime) (as ++ bs)).flatten) := by
    rw [hset]
    conv_lhs => rw [hsplit, hchain]
    simp only [flatten_append, flatten_cons, append_assoc, cons_append]
    rw [← append_assoc, ← append_assoc]
    exact perm_middle
  have hnodes := hperm.symm.trans h.nodes
  have hnodup := (hnodes.map HashNode.key).nodup_iff.2 h.nodup
  have hrest : (t.tab.set (node.key % t.prime) (as ++ bs)).flatten.Perm (bindings.filter (·.key ≠ node.key)) := by
    have hfilter := hnodes.filter (·.key ≠ node.key)
    rw [filter_cons_of_neg (by simp), filter_eq_self.2] at hfilter
    · exact hfilter
    · intro x hx
      have hne : x.key ≠ node.key := fun heq => (nodup_cons.1 hnodup).1 (mem_map.2 ⟨x, hx, heq⟩)
      simpa using hne
  have hcount : t.count - 1 = (bindings.filter (·.key ≠ node.key)).length := by
    rw [h.count, ← hnodes.length_eq, ← hrest.length_eq]
    rfl
  have hkeys : ((bindings.filter (·.key ≠ node.key)).map HashNode.key).Nodup := h.nodup.sublist (filter_sublist.map _)
  rw [HashPtab.remove, hchain, unlink_eq has]
  simp only [Outcome.ofOption, Outcome.done_bind]
  by_cases hbound : t.prime < 4 * (t.freed + 1)
  · have hcut := cut_spec (t.prime / 8) (node :: t.free)
    have hlen : (node :: t.free).length = t.freed + 1 := by rw [length_cons, h.freed]
    rw [hlen] at hcut
    rw [if_pos hbound]
    refine ⟨_, _, rfl, ⟨hplaced, h.prime, hkeys, hrest, hcount, hcut.1⟩, ?_⟩
    change 4 * (cut _ _ _).2 ≤ t.prime
    omega
  · rw [if_neg hbound]
    exact ⟨_, _, rfl, ⟨hplaced, h.prime, hkeys, hrest, hcount, congrArg (· + 1) h.freed⟩, Nat.le_of_not_lt hbound⟩

theorem Inv.lookup (h : Inv t bindings) (hnode : node ∈ bindings) : t.lookup node.key = node.val := by
  obtain ⟨as, bs, hchain, has⟩ := h.at hnode
  rw [HashPtab.lookup, hchain, find?_append, find?_eq_none.2 (fun x hx => by simpa using has x hx),
    find?_cons_of_pos (by simp)]
  rfl

theorem Inv.absent (h : Inv t bindings) (hkey : key ∉ bindings.map HashNode.key) : t.lookup key = NULL := by
  rw [HashPtab.lookup, find?_eq_none.2]
  intro x hx heq
  apply hkey
  rw [← of_decide_eq_true heq]
  apply mem_map_of_mem
  apply h.nodes.mem_iff.1
  exact mem_flatten.2 ⟨_, mem_of_getElem? (h.placed.get key), hx⟩

theorem Inv.next (h : Inv t bindings) {pre post : List HashNode} (hall : t.tab.flatten = pre ++ node :: post) :
    t.next node.key = .done ((post.map HashNode.key).headD NULL) := by
  have hnode : node ∈ bindings := h.nodes.mem_iff.1 (by rw [hall]; simp)
  obtain ⟨as, bs, hchain, has⟩ := h.at hnode
  obtain ⟨before, after, hsplit, hlen, -⟩ := h.placed.split node.key
  have hnodup : t.tab.flatten.Nodup := Nodup.of_map _ ((h.nodes.map HashNode.key).nodup_iff.2 h.nodup)
  -- what follows in the chain, and behind it
  have hpost : post = bs ++ after.flatten := by
    have hflat : t.tab.flatten = (before.flatten ++ as) ++ node :: (bs ++ after.flatten) := by
      rw [hsplit, hchain]
      simp
    have hbefore : node ∉ pre ∧ node ∉ post := by
      rw [hall, nodup_middle, nodup_cons, mem_append, not_or] at hnodup
      exact hnodup.1
    rw [hall] at hflat
    exact ((append_cons_inj_of_notMem hbefore.1 hbefore.2).1 hflat).2.2
  have hdrop : t.tab.drop (1 + node.key % t.prime) = after := by
    rw [hsplit, append_cons, drop_left']
    rw [length_append, length_singleton, hlen, Nat.add_comm]
  have hwhile : (chain t.prime t.tab node.key).dropWhile (·.key ≠ node.key) = node :: bs := by
    rw [hchain, dropWhile_append_of_pos fun x hx => by simpa using has x hx, dropWhile_cons_of_neg (by simp)]
  rw [HashPtab.next, hwhile, hpost]
  cases bs with
  | nil =>
    rw [nil_append, ← firstKey_eq, ← hdrop]
  | cons x bs => rfl

/-! ## Every run -/

variable {r : Run}

theorem Inv.holds (h : Inv r.code r.bindings) (hbound : r.resized = false → 4 * r.code.freed ≤ r.code.prime) :
    Holds r where
  lookup _ hnode := h.lookup hnode
  absent _ hkey := h.absent hkey
  count := h.count
  freed := h.freed
  bound := hbound
  keys := by
    have hperm := h.nodes.map HashNode.key
    refine ⟨r.code.tab.flatten.map HashNode.key, hperm.nodup_iff.2 h.nodup, fun key => hperm.mem_iff, firstKey_eq _, ?_⟩
    intro pre key post hall
    obtain ⟨pre, rest, hflat, rfl, hrest⟩ := map_eq_append_iff.1 hall
    obtain ⟨node, post, rfl, rfl, rfl⟩ := map_eq_cons_iff.1 hrest
    exact h.next hflat

theorem Inv.step (h : Inv r.code r.bindings) (hbound : r.resized = false → 4 * r.code.freed ≤ r.code.prime) {op : Op}
    (hok : ok r op) : ∃ r', step r op = .done r' ∧ Inv r'.code r'.bindings ∧
      (r'.resized = false → 4 * r'.code.freed ≤ r'.code.prime) := by
  cases op with
  | store key val =>
    obtain ⟨t, ht, hinv, hfreed, hprime⟩ := h.store val hok
    refine ⟨_, by rw [HashPtab.step, ht]; rfl, hinv, fun hno => ?_⟩
    have := hbound hno
    dsimp only
    omega
  | remove key =>
    obtain ⟨val, t, ht, hinv, hle⟩ := h.remove hok
    exact ⟨_, by rw [HashPtab.step, ht]; rfl, hinv, fun _ => hle⟩
  | resize power => exact ⟨_, rfl, (h.resize power).1, nofun⟩

theorem inv_create (power : Nat) (autoResize : Bool) : Inv (create power autoResize) [] where
  placed := placed_replicate (prime_pos power)
  prime := by rw [create, limit_limit]
  nodup := nodup_nil
  nodes := by rw [create, flatten_replicate_nil]
  count := rfl
  freed := rfl

/-- In every run the table is a finite map with as many bindings as it counts, the free list is as long as it says, and
the keys can be gone through. -/
theorem pointer_tables_are_maps {power : Nat} {autoResize : Bool} (h : Reach step ok (init power autoResize) r) :
    Holds r ∧ ∀ op, ok r op → ∃ r', step r op = .done r' := by
  have hinv : Inv r.code r.bindings ∧ (r.resized = false → 4 * r.code.freed ≤ r.code.prime) := by
    induction h with
    | init => exact ⟨inv_create power autoResize, fun _ => Nat.zero_le _⟩
    | step _ hok hstep ih =>
      obtain ⟨s, hs, hinv⟩ := ih.1.step ih.2 hok
      rw [hs] at hstep
      cases hstep
      exact hinv
  refine ⟨hinv.1.holds hinv.2, fun op hok => ?_⟩
  obtain ⟨r', hr', -⟩ := hinv.1.step hinv.2 hok
  exact ⟨r', hr'⟩

theorem pointer_tables_are_maps_chained : ∃ r : Run, Holds r ∧ r.code.first = 98 ∧ r.code.next 98 = .done 1 ∧
    r.code.next 1 = .done NULL ∧ r.code.freed = 1 := by
  obtain ⟨r, hrun, hr⟩ : ∃ r, runPermitted step ok (init 6 true) [.store 1 7, .store 5 8, .store 98 9, .remove 5] =
      .done r ∧ r.code.first = 98 ∧ r.code.next 98 = .done 1 ∧ r.code.next 1 = .done NULL ∧ r.code.freed = 1 :=
    ⟨_, rfl, rfl, rfl, rfl, rfl⟩
  exact ⟨r, (pointer_tables_are_maps (Reach.init.of_runPermitted hrun)).1, hr⟩

end HashPtab

end SNet.Front
