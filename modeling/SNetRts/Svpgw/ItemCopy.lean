import SNetRts.Svpgw.ItemVec

/-!
# Copying and moving items

What `drecord_copy_items` of `svpgw/src/core/record.utc` does to the maps that the vectors of the two records
stand for. `copyBinding` is the abstract copy of one item. The loop does the same as long as an item that is
moved keeps its name: the code takes the new name out of the source where it should take the old one.
-/

namespace SNet.Svpgw

open List

open SNet.Svpgw.Vector (unsetItemVal)

namespace ItemVec

variable {V : Type} (kind : ItemKind V) (flags : CopyFlags)

def left (it : RecordItem V) : Option (RecordItem V) :=
  if flags.move then none else some { it with val := (kind.transfer false it.val).1 }

def made (it : RecordItem V) : RecordItem V :=
  ⟨(kind.transfer flags.move it.val).2, kind.keepsFlags && it.consumed, false⟩

/-- The item of `name` goes to the target under `newName`, if the flags ask for it and the target does not
have the name. -/
def copyBinding (m : Map V × Map V) (name newName : Int) : Map V × Map V :=
  match m.1 name with
  | none => m
  | some it =>
    if flags.selects it.consumed = true ∧ m.2 newName = none then
      (Function.update m.1 name (left kind flags it), Function.update m.2 newName (some (made kind flags it)))
    else m

def copyBindings (new : NamesPtr) : Nat → List Int → Map V × Map V → Map V × Map V
  | _, [], m => m
  | i, name :: names, m => copyBindings new (i + 1) names (copyBinding kind flags m name ((new i).getD name))

/-- Where the source has the name, there is a new name, and it is the old one for an item that is moved. -/
def CopyFair (new : NamesPtr) : Nat → List Int → Map V × Map V → Prop
  | _, [], _ => True
  | i, name :: names, m =>
    (∀ it, m.1 name = some it → ∃ newName, new i = some newName ∧ newName ≠ unsetItemVal ∧
      (flags.move = true → flags.selects it.consumed = true → m.2 newName = none → newName = name)) ∧
    CopyFair new (i + 1) names (copyBinding kind flags m name ((new i).getD name))

/-- Every item that the flags ask for and whose name the target does not have. -/
def copyAll (m : Map V × Map V) : Map V × Map V :=
  (fun name => (m.1 name).bind fun it =>
      if flags.selects it.consumed = true ∧ m.2 name = none then left kind flags it else some it,
    fun name => (m.2 name).or ((m.1 name).bind fun it =>
      if flags.selects it.consumed = true then some (made kind flags it) else none))

variable {kind flags} in
theorem copyBinding_of_none {m : Map V × Map V} {name newName : Int} (h : m.1 name = none) :
    copyBinding kind flags m name newName = m := by
  unfold copyBinding
  rw [h]

/-! ## One round -/

/-- What holds before round `i`: the source with its marks, and the target with its copies and with room for
one more in each round that is left. -/
structure LoopInv (r2ItemsCnt copyLoopCnt i : Nat) (s : CopyLoop V) (l1 l2 : List (Binding V)) : Prop where
  src : Holds s.src l1
  marked : Marked l1
  kept : flags.move = false → ∀ b ∈ l1, b.2.deleted = false
  first : ∀ b ∈ l1.take s.first, b.2.deleted = false
  names : s.dst.names.items = l2.keys
  clean : Clean l2
  items : s.dst.items =
    l2.map Sigma.snd ++ List.replicate (r2ItemsCnt + copyLoopCnt - l2.length) kind.zeroItem
  count : l2.length = r2ItemsCnt + s.copiedItemsCnt
  bound : s.copiedItemsCnt ≤ i

variable {kind flags} {r2ItemsCnt copyLoopCnt i : Nat} {s : CopyLoop V} {l1 l2 pre post : List (Binding V)}
  {name newName : Int} {it : RecordItem V} {names newNames : Option NamesPtr}

theorem LoopInv.skip (h : LoopInv kind flags r2ItemsCnt copyLoopCnt i s l1 l2) :
    LoopInv kind flags r2ItemsCnt copyLoopCnt (i + 1) s l1 l2 :=
  ⟨h.src, h.marked, h.kept, h.first, h.names, h.clean, h.items, h.count, Nat.le_succ_of_le h.bound⟩

theorem notMem_pre (h : Marked (pre ++ ⟨name, it⟩ :: post)) (hname : name ≠ unsetItemVal) : name ∉ pre.keys := by
  have hd := h.distinct
  rw [live_middle hname] at hd
  intro hmem
  apply Lib.notMem_keys_of_middle hd
  rw [keys_append, keys_filter]
  exact mem_append_left _ (mem_filter.2 ⟨hmem, decide_eq_true hname⟩)

theorem Marked.present_middle (h : Marked (pre ++ ⟨name, it⟩ :: post)) (hname : name ≠ unsetItemVal) :
    it.deleted = false := by
  rw [← Bool.not_eq_true, ← h.marks ⟨name, it⟩ (mem_append_right _ (mem_cons_self ..))]
  exact hname

theorem LoopInv.copy (h : LoopInv kind flags r2ItemsCnt copyLoopCnt i s (pre ++ ⟨name, it⟩ :: post) l2)
    (hi : i < copyLoopCnt) (hname : name ≠ unsetItemVal) (hnew : newName ≠ unsetItemVal)
    (hmove : flags.move = true → flags.selects it.consumed = true → mapOf l2 newName = none → newName = name)
    (hpick : copyPick names newNames s.src i = some (some (newName, pre.length))) :
    ∃ s' b' l2', copyStep kind flags names newNames r2ItemsCnt s i = some s' ∧
      LoopInv kind flags r2ItemsCnt copyLoopCnt (i + 1) s' (pre ++ b' :: post) l2' ∧
      (mapOf (pre ++ b' :: post), mapOf l2') =
        copyBinding kind flags (mapOf (pre ++ ⟨name, it⟩ :: post), mapOf l2) name newName := by
  have hnot := notMem_pre h.marked hname
  have hdel := h.marked.present_middle hname
  obtain ⟨hrem, hget⟩ := h.src.mark hnot
  have hbind : mapOf (pre ++ ⟨name, it⟩ :: post) name = some it := mapOf_middle h.marked hname
  unfold copyStep copyBinding
  rw [hpick]
  simp only [Option.bind_eq_bind, Option.bind_some, hget, hbind]
  by_cases hsel : flags.selects it.consumed = true
  · by_cases hmem : newName ∈ l2.keys
    · have hsome : mapOf l2 newName ≠ none := by
        rw [← Option.isSome_iff_ne_none, ← h.clean.mem_keys_iff]
        exact hmem
      rw [Vector.addItem_of_mem (by rw [h.names]; exact hmem)]
      simp only [hsel, hsome, and_false, if_false, Bool.true_eq_false]
      exact ⟨s, ⟨name, it⟩, l2, rfl, h.skip, rfl⟩
    · have hnone : mapOf l2 newName = none := by
        rw [← Option.not_isSome_iff_eq_none, ← h.clean.mem_keys_iff]
        exact hmem
      have hroom : l2.length < r2ItemsCnt + copyLoopCnt := by
        have := h.count
        have := h.bound
        omega
      have hlen : ¬ s.dst.items.length ≤ r2ItemsCnt + s.copiedItemsCnt := by
        rw [h.items, length_append, length_map, length_replicate, ← h.count]
        omega
      rw [Vector.addItem_of_notMem (by rw [h.names]; exact hmem)]
      simp only [hsel, hnone, and_self, if_true, Bool.true_eq_false, if_false, hlen, hdel, Bool.and_false]
      obtain ⟨hclean', hmap2⟩ := h.clean.concat (made kind flags it) hnew hmem rfl
      have hdst : s.dst.items.set (r2ItemsCnt + s.copiedItemsCnt) (made kind flags it) =
          (l2 ++ [(⟨newName, made kind flags it⟩ : Binding V)]).map Sigma.snd ++
            List.replicate (r2ItemsCnt + copyLoopCnt - (l2 ++ [(⟨newName, made kind flags it⟩ : Binding V)]).length)
              kind.zeroItem := by
        have hsucc : r2ItemsCnt + copyLoopCnt - l2.length =
            (r2ItemsCnt + copyLoopCnt - (l2.length + 1)) + 1 := by omega
        rw [h.items, ← h.count, hsucc, replicate_succ, set_append_right _ _ (by simp)]
        simp
      have hcount' : (l2 ++ [(⟨newName, made kind flags it⟩ : Binding V)]).length =
          r2ItemsCnt + (s.copiedItemsCnt + 1) := by
        rw [length_append, length_singleton, h.count]
        omega
      have hnames' : s.dst.names.items ++ [newName] =
          (l2 ++ [(⟨newName, made kind flags it⟩ : Binding V)]).keys := by
        rw [h.names, keys_append]
        rfl
      by_cases hmv : flags.move = true
      · obtain rfl := hmove hmv hsel hnone
        obtain ⟨hmarked', hmap1⟩ := h.marked.mark
          { it with val := (kind.transfer true it.val).1, deleted := true } hname rfl
        refine ⟨_, ⟨unsetItemVal, { it with val := (kind.transfer true it.val).1, deleted := true }⟩,
          l2 ++ [⟨newName, made kind flags it⟩], rfl, ?_, ?_⟩
        · refine ⟨⟨?_, ?_⟩, hmarked', fun hno => absurd hmv (by simp [hno]), ?_, hnames', hclean', ?_, hcount',
            Nat.succ_le_succ h.bound⟩
          · simp only [hmv, if_true, hrem]
            rw [keys_append, keys_cons]
            rfl
          · simp only [hmv, if_true]
            rw [h.src.set]
            simp
          · simp only [hmv, true_and]
            exact take_mark h.first
          · simp only [hmv]
            rw [← hdst]
            simp [made, hmv]
        · rw [hmap1, hmap2]
          simp [left, hmv]
      · rw [Bool.not_eq_true] at hmv
        obtain ⟨hmarked', hmap1⟩ := h.marked.replace
          { it with val := (kind.transfer false it.val).1 } hname hdel
        refine ⟨_, ⟨name, { it with val := (kind.transfer false it.val).1 }⟩,
          l2 ++ [⟨newName, made kind flags it⟩], rfl, ?_, ?_⟩
        · have hkept := h.kept hmv
          have hkept' : ∀ b ∈ pre ++ (⟨name, { it with val := (kind.transfer false it.val).1 }⟩ : Binding V) :: post,
              b.2.deleted = false := by
            intro b hb
            rw [mem_append, mem_cons] at hb
            rcases hb with hb | rfl | hb
            · exact hkept b (mem_append_left _ hb)
            · exact hdel
            · exact hkept b (mem_append_right _ (mem_cons_of_mem _ hb))
          refine ⟨⟨?_, ?_⟩, hmarked', fun _ => hkept', fun b hb => hkept' b (mem_of_mem_take hb), hnames',
            hclean', ?_, hcount', Nat.succ_le_succ h.bound⟩
          · simp only [hmv, Bool.false_eq_true, if_false]
            rw [h.src.names, keys_append, keys_append, keys_cons, keys_cons]
          · simp only [hmv, Bool.false_eq_true, if_false]
            rw [h.src.set]
            simp [hdel]
          · simp only [hmv]
            rw [← hdst]
            simp [made, hmv]
        · rw [hmap1, hmap2]
          simp [left, hmv]
  · rw [if_neg (not_and_of_not_left _ hsel)]
    rw [Bool.not_eq_true] at hsel
    simp only [hsel, if_true]
    exact ⟨s, ⟨name, it⟩, l2, rfl, h.skip, rfl⟩

/-! ## All rounds -/

theorem LoopInv.names_src (h : LoopInv kind flags r2ItemsCnt copyLoopCnt i s l1 l2) (hpos : 0 < l1.length) :
    s.src.names = some l1.keys := by
  obtain ⟨b, l, rfl⟩ := exists_cons_of_length_pos hpos
  rw [← h.src.names]
  have hmem : b.1 ∈ s.src.names.items := by
    rw [h.src.names, keys_cons]
    exact mem_cons_self ..
  exact Vector.eq_some_of_mem hmem

theorem LoopInv.round {ptr : NamesPtr} (newNames : Option NamesPtr) (h : LoopInv kind flags r2ItemsCnt copyLoopCnt i s l1 l2)
    (hi : i < copyLoopCnt) (hlen : 0 < l1.length) (hptr : ptr i = some name) (hname : name ≠ unsetItemVal)
    (hfair : ∀ it, mapOf l1 name = some it → ∃ newName, newNames.getD ptr i = some newName ∧
      newName ≠ unsetItemVal ∧
      (flags.move = true → flags.selects it.consumed = true → mapOf l2 newName = none → newName = name)) :
    ∃ s' l1' l2', copyStep kind flags (some ptr) newNames r2ItemsCnt s i = some s' ∧
      LoopInv kind flags r2ItemsCnt copyLoopCnt (i + 1) s' l1' l2' ∧ l1'.length = l1.length ∧
      (mapOf l1', mapOf l2') =
        copyBinding kind flags (mapOf l1, mapOf l2) name ((newNames.getD ptr i).getD name) := by
  have hsrc := h.names_src hlen
  by_cases hmem : name ∈ l1.keys
  · obtain ⟨pre, it, post, rfl, hnot⟩ := exists_middle_of_mem_keys hmem
    obtain ⟨newName, hread, hnew, hmove⟩ := hfair it (mapOf_middle h.marked hname)
    have hpick : copyPick (some ptr) newNames s.src i = some (some (newName, pre.length)) := by
      have hidx : (pre ++ (⟨name, it⟩ : Binding V) :: post).keys.idxOf? name = some pre.length := by
        rw [keys_append, keys_cons, Vector.idxOf?_middle hnot, List.keys, length_map]
      unfold copyPick
      simp only [hptr, hsrc, hidx, hread, Option.bind_eq_bind, Option.bind_some]
    obtain ⟨s', b', l2', hstep, hinv, hmaps⟩ := h.copy hi hname hnew hmove hpick
    rw [hread]
    exact ⟨s', pre ++ b' :: post, l2', hstep, hinv, by simp, hmaps⟩
  · have hnone : mapOf l1 name = none := by
      rw [mapOf_eq_none_iff, keys_filter]
      intro hlive
      exact hmem (mem_filter.1 hlive).1
    refine ⟨s, l1, l2, ?_, h.skip, rfl, ?_⟩
    · unfold copyStep copyPick
      simp only [hptr, hsrc, idxOf?_eq_none_iff.2 hmem, Option.bind_eq_bind, Option.bind_some]
    · rw [copyBinding_of_none hnone]

theorem LoopInv.specs {ptr : NamesPtr} {todo : List Int} (h : LoopInv kind flags r2ItemsCnt copyLoopCnt i s l1 l2)
    (hcnt : i + todo.length = copyLoopCnt) (hlen : copyLoopCnt ≤ l1.length)
    (hptr : ∀ k name, todo[k]? = some name → ptr (i + k) = some name)
    (hlabels : ∀ name ∈ todo, name ≠ unsetItemVal)
    (hfair : CopyFair kind flags (newNames.getD ptr) i todo (mapOf l1, mapOf l2)) :
    ∃ s' l1' l2',
      (List.range' i todo.length).foldlM (copyStep kind flags (some ptr) newNames r2ItemsCnt) s = some s' ∧
      LoopInv kind flags r2ItemsCnt copyLoopCnt copyLoopCnt s' l1' l2' ∧
      (mapOf l1', mapOf l2') = copyBindings kind flags (newNames.getD ptr) i todo (mapOf l1, mapOf l2) := by
  induction todo generalizing i s l1 l2 with
  | nil =>
    obtain rfl : i = copyLoopCnt := hcnt
    exact ⟨s, l1, l2, rfl, h, rfl⟩
  | cons name todo ih =>
    obtain ⟨hhere, hrest⟩ := hfair
    rw [length_cons] at hcnt ⊢
    obtain ⟨s', l1', l2', hstep, hinv, hlen', hmaps⟩ :=
      h.round newNames (by omega) (by omega) (hptr 0 name rfl) (hlabels name (mem_cons_self ..))
        hhere
    have hptr' : ∀ k n, todo[k]? = some n → ptr (i + 1 + k) = some n := by
      intro k n hk
      rw [Nat.add_assoc, Nat.add_comm 1 k]
      exact hptr (k + 1) n hk
    rw [← hmaps] at hrest
    obtain ⟨s'', l1'', l2'', hrun, hinv', hmaps'⟩ :=
      ih hinv (by omega) (by omega) hptr' (fun n hn => hlabels n (mem_cons_of_mem _ hn)) hrest
    refine ⟨s'', l1'', l2'', ?_, hinv', ?_⟩
    · rw [range'_succ, foldlM_cons, hstep]
      exact hrun
    · rw [hmaps', copyBindings, hmaps]

theorem LoopInv.noSpecs {done rest : List (Binding V)}
    (h : LoopInv kind flags r2ItemsCnt copyLoopCnt done.length s (done ++ rest) l2)
    (hcnt : done.length + rest.length = copyLoopCnt) (hlabels : ∀ b ∈ rest, b.1 ≠ unsetItemVal) :
    ∃ s' l1' l2',
      (List.range' done.length rest.length).foldlM (copyStep kind flags none none r2ItemsCnt) s = some s' ∧
      LoopInv kind flags r2ItemsCnt copyLoopCnt copyLoopCnt s' l1' l2' ∧
      (mapOf l1', mapOf l2') =
        rest.keys.foldl (fun m name => copyBinding kind flags m name name) (mapOf (done ++ rest), mapOf l2) := by
  induction rest generalizing done s l2 with
  | nil =>
    obtain rfl : done.length = copyLoopCnt := hcnt
    exact ⟨s, done ++ [], l2, rfl, h, rfl⟩
  | cons b rest ih =>
    obtain ⟨name, it⟩ := b
    have hname := hlabels ⟨name, it⟩ (mem_cons_self ..)
    rw [length_cons] at hcnt ⊢
    have hsrc := h.names_src (by rw [length_append, length_cons]; omega)
    have hpick : copyPick none none s.src done.length = some (some (name, done.length)) := by
      have hget : (done ++ (⟨name, it⟩ : Binding V) :: rest).keys[done.length]? = some name := by
        rw [keys_append, getElem?_append_right (by simp [List.keys])]
        simp [List.keys]
      unfold copyPick
      simp only [hsrc, hget, Option.bind_eq_bind, Option.bind_some]
    obtain ⟨s', b', l2', hstep, hinv, hmaps⟩ := h.copy (by omega) hname hname (fun _ _ _ => rfl) hpick
    have hsnoc : done ++ b' :: rest = (done ++ [b']) ++ rest := by simp
    have hlen : (done ++ [b']).length = done.length + 1 := by simp
    rw [hsnoc] at hinv hmaps
    rw [← hlen] at hinv
    obtain ⟨s'', l1'', l2'', hrun, hinv', hmaps'⟩ :=
      ih hinv (by rw [hlen]; omega) fun c hc => hlabels c (mem_cons_of_mem _ hc)
    refine ⟨s'', l1'', l2'', ?_, hinv', ?_⟩
    · rw [range'_succ, foldlM_cons, hstep, ← hlen]
      exact hrun
    · rw [hmaps', hmaps, keys_cons, foldl_cons]

variable {m : Map V × Map V} {n : Int}

variable (kind flags m) in
theorem copyBinding_of_ne (hn : n ≠ name) :
    (copyBinding kind flags m name name).1 n = m.1 n ∧ (copyBinding kind flags m name name).2 n = m.2 n := by
  unfold copyBinding
  split
  · exact ⟨rfl, rfl⟩
  · split
    · exact ⟨Function.update_of_ne hn _ _, Function.update_of_ne hn _ _⟩
    · exact ⟨rfl, rfl⟩

variable (kind flags m name) in
theorem copyBinding_self :
    (copyBinding kind flags m name name).1 name = (copyAll kind flags m).1 name ∧
      (copyBinding kind flags m name name).2 name = (copyAll kind flags m).2 name := by
  unfold copyBinding copyAll
  rcases h1 : m.1 name with _ | it
  · simp [h1]
  · rcases h2 : m.2 name with _ | it2
    · by_cases hsel : flags.selects it.consumed = true
      · simp [h1, h2, hsel]
      · simp [h1, h2, hsel]
    · simp [h1, h2]

theorem foldl_copyBinding {names : List Int} (hd : names.Nodup) :
    names.foldl (fun m name => copyBinding kind flags m name name) m =
      (fun n => if n ∈ names then (copyAll kind flags m).1 n else m.1 n,
        fun n => if n ∈ names then (copyAll kind flags m).2 n else m.2 n) := by
  induction names generalizing m with
  | nil => simp
  | cons name names ih =>
    obtain ⟨hnot, hd⟩ := nodup_cons.1 hd
    have hrest : ∀ n, n ≠ name →
        (copyAll kind flags (copyBinding kind flags m name name)).1 n = (copyAll kind flags m).1 n ∧
          (copyAll kind flags (copyBinding kind flags m name name)).2 n = (copyAll kind flags m).2 n := by
      intro n hn
      obtain ⟨h1, h2⟩ := copyBinding_of_ne kind flags m hn
      simp only [copyAll, h1, h2, and_self]
    rw [foldl_cons, ih hd]
    obtain ⟨hself1, hself2⟩ := copyBinding_self kind flags name m
    apply Prod.ext
    · funext n
      by_cases hn : n = name
      · subst hn
        simp [hnot, hself1]
      · simp [hn, (hrest n hn).1, (copyBinding_of_ne kind flags m hn).1]
    · funext n
      by_cases hn : n = name
      · subst hn
        simp [hnot, hself2]
      · simp [hn, (hrest n hn).2, (copyBinding_of_ne kind flags m hn).2]

/-! ## The whole loop -/

variable {iv1 iv2 : ItemVec V}

variable (kind flags copyLoopCnt) in
theorem LoopInv.init (h1 : iv1.Aligned) (h2 : iv2.Aligned) :
    LoopInv kind flags iv2.names.size copyLoopCnt 0
      ⟨iv1, { iv2 with items := resizeDvec kind iv2.items iv2.names.size (iv2.names.size + copyLoopCnt) }, 0,
        iv1.names.size⟩ iv1.bindings iv2.bindings := by
  obtain ⟨hh1, hc1⟩ := h1.holds
  obtain ⟨hh2, hc2⟩ := h2.holds
  have hlen2 : iv2.bindings.length = iv2.names.size := by
    rw [Vector.size, hh2.names, List.keys, length_map]
  refine ⟨hh1, hc1.marked, fun _ => hc1.present, fun b hb => hc1.present b (mem_of_mem_take hb), hh2.names, hc2,
    ?_, hlen2, Nat.le_refl 0⟩
  have hle : iv2.items.length ≤ iv2.names.size + copyLoopCnt := by
    rw [h2.length]
    omega
  rw [resizeDvec, take_of_length_le hle, hlen2, ← hh2.items]

theorem LoopInv.finish (h : LoopInv kind flags r2ItemsCnt copyLoopCnt copyLoopCnt s l1 l2) :
    let src :=
      if flags.move then { names := s.src.names.removeUnsetEntries, items := packDvec s.src.items s.first }
      else s.src
    let dst :=
      { s.dst with
        items := resizeDvec kind s.dst.items (r2ItemsCnt + copyLoopCnt) (r2ItemsCnt + s.copiedItemsCnt) }
    (src.Aligned ∧ src.map = mapOf l1) ∧ dst.Aligned ∧ dst.map = mapOf l2 := by
  refine ⟨?_, ?_⟩
  · split
    · rw [← h.marked.mapOf_live]
      exact (h.marked.pack h.src h.first).aligned h.marked.clean
    · next hmv =>
      rw [Bool.not_eq_true] at hmv
      exact h.src.aligned (h.marked.clean_of_present (h.kept hmv))
  · apply Holds.aligned _ h.clean
    refine ⟨h.names, ?_⟩
    have hzero : r2ItemsCnt + s.copiedItemsCnt - (r2ItemsCnt + copyLoopCnt) = 0 := by
      have := h.bound
      omega
    rw [resizeDvec, hzero, h.items, replicate_zero, append_nil, ← h.count,
      take_left' (by rw [length_map])]

theorem copyBinding_of_idle (hoff : flags.consumed = false ∧ flags.unconsumed = false) :
    copyBinding kind flags m name newName = m := by
  unfold copyBinding
  split
  · rfl
  · simp [CopyFlags.selects, hoff.1, hoff.2]

theorem copyBindings_of_idle {ptr : NamesPtr} {todo : List Int}
    (hoff : flags.consumed = false ∧ flags.unconsumed = false) : copyBindings kind flags ptr i todo m = m := by
  induction todo generalizing i with
  | nil => rfl
  | cons name todo ih => rw [copyBindings, copyBinding_of_idle hoff, ih]

theorem drecordCopyItems_specs (newNames : Option NamesPtr) {ptr : NamesPtr} {todo : List Int} (h1 : iv1.Aligned) (h2 : iv2.Aligned)
    (hcount : ¬ (flags.consumed = false ∧ flags.unconsumed = false) → todo.length ≤ iv1.names.size)
    (hptr : ∀ k name, todo[k]? = some name → ptr k = some name) (hlabels : ∀ name ∈ todo, name ≠ unsetItemVal)
    (hfair : CopyFair kind flags (newNames.getD ptr) 0 todo (iv1.map, iv2.map)) :
    ∃ r, drecordCopyItems kind flags (some ptr) newNames todo.length iv1 iv2 = some r ∧
      r.1.Aligned ∧ r.2.1.Aligned ∧
      (r.1.map, r.2.1.map) = copyBindings kind flags (newNames.getD ptr) 0 todo (iv1.map, iv2.map) := by
  unfold drecordCopyItems
  by_cases hoff : flags.consumed = false ∧ flags.unconsumed = false
  · rw [if_pos hoff]
    refine ⟨_, rfl, h1, h2, ?_⟩
    rw [copyBindings_of_idle hoff]
  · rw [if_neg hoff]
    have hcount := hcount hoff
    simp only [Option.isNone_some, Bool.false_eq_true, if_false]
    rw [if_neg (Nat.not_lt.2 hcount)]
    rcases Nat.eq_zero_or_pos todo.length with h0 | hpos
    · rw [if_pos h0, length_eq_zero_iff.1 h0]
      exact ⟨_, rfl, h1, h2, rfl⟩
    · have hlen : todo.length ≤ iv1.bindings.length := by
        rw [Vector.size, h1.holds.1.names, List.keys, length_map] at hcount
        exact hcount
      rw [h1.map_eq, h2.map_eq] at hfair ⊢
      obtain ⟨s, l1, l2, hrun, hinv, hmaps⟩ :=
        (LoopInv.init kind flags todo.length h1 h2).specs (Nat.zero_add _) hlen
          (fun k name hk => by rw [Nat.zero_add]; exact hptr k name hk) hlabels hfair
      obtain ⟨⟨ha1, hm1⟩, ha2, hm2⟩ := hinv.finish
      rw [if_neg (Nat.pos_iff_ne_zero.1 hpos), range_eq_range', hrun]
      refine ⟨_, rfl, ha1, ha2, ?_⟩
      rw [← hmaps, ← hm1, ← hm2]

theorem drecordCopyItems_noSpecs (h1 : iv1.Aligned) (h2 : iv2.Aligned) :
    ∃ r, drecordCopyItems kind flags none none 0 iv1 iv2 = some r ∧
      r.1.Aligned ∧ r.2.1.Aligned ∧ (r.1.map, r.2.1.map) = copyAll kind flags (iv1.map, iv2.map) := by
  have hcover : iv1.bindings.keys.foldl (fun m name => copyBinding kind flags m name name) (iv1.map, iv2.map) =
      copyAll kind flags (iv1.map, iv2.map) := by
    rw [foldl_copyBinding h1.nodupKeys]
    have hout : ∀ n, n ∉ iv1.bindings.keys → iv1.map n = none := fun n hn => dlookup_eq_none.2 hn
    apply Prod.ext
    · funext n
      by_cases hn : n ∈ iv1.bindings.keys
      · simp [hn]
      · simp [hn, copyAll, hout n hn]
    · funext n
      by_cases hn : n ∈ iv1.bindings.keys
      · simp [hn]
      · simp [hn, copyAll, hout n hn]
  have hlen : iv1.bindings.length = iv1.names.size := by
    rw [Vector.size, h1.holds.1.names, List.keys, length_map]
  rw [← hcover]
  unfold drecordCopyItems
  by_cases hoff : flags.consumed = false ∧ flags.unconsumed = false
  · rw [if_pos hoff]
    refine ⟨_, rfl, h1, h2, ?_⟩
    induction iv1.bindings.keys with
    | nil => rfl
    | cons name names ih => rw [foldl_cons, copyBinding_of_idle hoff, ← ih]
  · rw [if_neg hoff]
    simp only [Option.isNone_none, if_true, Nat.lt_irrefl, if_false]
    rcases Nat.eq_zero_or_pos iv1.names.size with h0 | hpos
    · rw [if_pos h0, length_eq_zero_iff.1 (hlen.trans h0)]
      exact ⟨_, rfl, h1, h2, rfl⟩
    · have hinit : LoopInv kind flags iv2.names.size iv1.names.size ([] : List (Binding V)).length
          ⟨iv1, ⟨iv2.names, resizeDvec kind iv2.items iv2.names.size (iv2.names.size + iv1.names.size)⟩, 0,
            iv1.names.size⟩ ([] ++ iv1.bindings) iv2.bindings := LoopInv.init kind flags iv1.names.size h1 h2
      obtain ⟨s, l1, l2, hrun, hinv, hmaps⟩ :=
        hinit.noSpecs ((Nat.zero_add _).trans hlen) h1.holds.2.labels
      rw [hlen, length_nil] at hrun
      obtain ⟨⟨ha1, hm1⟩, ha2, hm2⟩ := hinv.finish
      rw [if_neg (Nat.pos_iff_ne_zero.1 hpos), range_eq_range', hrun]
      refine ⟨_, rfl, ha1, ha2, ?_⟩
      rw [h1.map_eq, h2.map_eq]
      exact (Prod.ext hm1 hm2).trans hmaps

end ItemVec

end SNet.Svpgw
