import SNetRts.Distrib.Mpb

/-!
# Messages through the buffer

The buffer is a FIFO of messages as long as no writer begins one while another one is in the middle of
its own, and the reader begins one only when all of it is there. A writer that finds the buffer full
gives up the lock, with `WRITING` set only if it has not copied anything of the piece at hand, and the
reader does not look at `WRITING` at all.
-/

namespace SNet.Distrib.Mpb

open Function (update update_of_ne update_self)

open Lib List

variable {W β : Type} [DecidableEq W] {B : Nat} {want : List (List β) → Option Nat} {s s' : State W β}

/-- The reader that has read `got` of a message reads `pieces` next, and then is done. -/
def Matches (want : List (List β) → Option Nat) : List (List β) → List (List β) → Prop
  | got, [] => want got = none
  | got, piece :: pieces => want got = some piece.length ∧ Matches want (got ++ [piece]) pieces

/-- The writer is between `start_write_node` and `stop_write_node`. -/
def Writer.Sending : Writer β → Prop
  | .sending .. => True
  | _ => False

/-- The reader reads a message in the pieces in which it is written, and these are shorter than the
buffer. -/
def Surroundings (B : Nat) (want : List (List β) → Option Nat) (_ : State W β) : Act W β → Prop
  | .send _ msg => Matches want [] msg ∧ ∀ piece ∈ msg, piece.length < B
  | _ => True

/-- A writer begins a message when no other one is in the middle of its own, and the reader begins one
when all of it has been written. -/
def InTurn (s : State W β) : Act W β → Prop
  | .startWrite _ => s.owner = none → s.WRITING = false → ∀ w, ¬ (s.writer w).Sending
  | .startRead => s.owner = none → s.START ≠ s.END → s.received.length < s.sent.length
  | _ => True

/-- The buffer is a FIFO of messages. -/
structure Fifo (s : State W β) : Prop where
  /-- What has been read is what has been written, in that order, and not more than that. -/
  inOrder : s.read <+: s.written
  /-- What has been written is whole messages, up to the one of the writer that is sending. -/
  whole : ∃ part, s.written = s.sent.flatten.flatten ++ part ∧
    (part = [] ∨ ∃ w msg piece rest, s.writer w = .sending msg part piece rest ∧ part <+: msg.flatten)
  /-- The messages are read as they have been written. -/
  delivered : s.received <+: s.sent
  /-- The positions are equal exactly when all has been read. -/
  empty : s.START = s.END ↔ s.read = s.written

structure Inv (B : Nat) (want : List (List β) → Option Nat) (s : State W β) (unread : List β) : Prop where
  holds : Circular.Holds B s.mem s.START s.END unread
  unread : s.written = s.read ++ unread
  one : ∀ w w', (s.writer w).Sending → (s.writer w').Sending → w = w'
  ownerWriter : ∀ w, s.owner = some (.writer w) → (s.writer w).Sending
  ownerReader : s.owner = some .reader ↔ s.reader ≠ .away
  waiting : ∀ w msg, s.writer w = .waiting msg → Matches want [] msg ∧ ∀ piece ∈ msg, piece.length < B
  sending : ∀ w msg done piece rest, s.writer w = .sending msg done piece rest →
    Matches want [] msg ∧ msg.flatten = done ++ piece ++ rest.flatten ∧ (∀ piece ∈ rest, piece.length < B) ∧
      s.written = s.sent.flatten.flatten ++ done
  nobody : (∀ w, ¬ (s.writer w).Sending) → s.written = s.sent.flatten.flatten
  sent : ∀ msg ∈ s.sent, Matches want [] msg
  delivered : s.received <+: s.sent
  away : s.reader = .away → s.read = s.received.flatten.flatten
  reading : ∀ got, s.reader = .reading got → s.read = s.received.flatten.flatten ++ got.flatten ∧
    ∃ pieces msgs, s.sent = s.received ++ (got ++ pieces) :: msgs ∧ Matches want got pieces

omit [DecidableEq W] in
theorem Inv.fifo {unread : List β} (h : Inv B want s unread) : Fifo s where
  inOrder := ⟨unread, h.unread.symm⟩
  whole := by
    by_cases hnobody : ∀ w, ¬ (s.writer w).Sending
    · exact ⟨[], by rw [h.nobody hnobody, append_nil], Or.inl rfl⟩
    · simp only [not_forall, not_not] at hnobody
      obtain ⟨w, hw⟩ := hnobody
      cases hwr : s.writer w with
      | idle => exact absurd hw (by rw [hwr]; exact id)
      | waiting msg => exact absurd hw (by rw [hwr]; exact id)
      | sending msg done piece rest =>
        obtain ⟨-, hmsg, -, hwritten⟩ := h.sending w msg done piece rest hwr
        refine ⟨done, hwritten, Or.inr ⟨w, msg, piece, rest, hwr, ?_⟩⟩
        rw [hmsg, append_assoc]
        exact prefix_append _ _
  delivered := h.delivered
  empty := by
    rw [h.holds.eq_iff, h.unread]
    simp

/-! ## Reading a piece -/

theorem cpyLoop_eq {mem : Nat → β} {start stop fuel : Nat} {xs ys : List β}
    (h : Circular.Holds B mem start stop (xs ++ ys)) (hfuel : xs.length ≤ fuel) :
    cpyLoop B mem stop fuel start xs.length = (xs, (start + xs.length) % B) ∧
      Circular.Holds B mem ((start + xs.length) % B) stop ys := by
  induction fuel generalizing start xs with
  | zero =>
    obtain rfl : xs = [] := length_eq_zero_iff.1 (Nat.le_zero.1 hfuel)
    have hmod : (start + 0) % B = start := Nat.mod_eq_of_lt h.start_lt
    rw [length_nil, hmod]
    exact ⟨rfl, h⟩
  | succ fuel ih =>
    have hstart := h.start_lt
    unfold cpyLoop
    split
    case isTrue hnil =>
      obtain rfl : xs = [] := length_eq_zero_iff.1 hnil
      have hmod : (start + 0) % B = start := Nat.mod_eq_of_lt hstart
      rw [length_nil, hmod]
      exact ⟨rfl, h⟩
    case isFalse hne =>
      -- the turn takes out `cpy` elements in one piece
      obtain ⟨cpy, hcpy⟩ : ∃ cpy, cpy = if stop < start then min xs.length (B - start) else xs.length :=
        ⟨_, rfl⟩
      have hle : cpy ≤ xs.length ∧ 0 < cpy ∧ start + cpy ≤ B := by
        have hcases := h.stop_cases
        have hshort := h.short
        rw [length_append] at hcases hshort
        rw [hcpy]
        split <;> omega
      obtain ⟨hle, hpos, hpiece⟩ := hle
      have hlen : (xs.take cpy).length = cpy := length_take_of_le hle
      have hdrop : (xs.drop cpy).length = xs.length - cpy := length_drop
      rw [← take_append_drop cpy xs, append_assoc] at h
      obtain ⟨hfetch, hrest⟩ := h.get (by rw [hlen]; exact hpiece)
      rw [hlen] at hfetch hrest
      obtain ⟨hloop, hholds⟩ := ih hrest (by rw [hdrop]; omega)
      rw [hdrop] at hloop hholds
      have hmod : ((start + cpy) % B + (xs.length - cpy)) % B = (start + xs.length) % B := by
        rw [Nat.mod_add_mod]
        congr 1
        omega
      rw [hmod] at hloop hholds
      dsimp only
      rw [← hcpy, hloop, hfetch]
      exact ⟨by rw [take_append_drop], hholds⟩

/-! ## Steps -/

variable {unread : List β}

theorem uint16_of_lt {n : Nat} (hB : B ≤ 2 ^ 16) (h : n < B) : uint16 n = n :=
  Nat.mod_eq_of_lt (Nat.lt_of_lt_of_le h hB)

theorem sending_update {w : W} {x : Writer β} (hx : x.Sending ↔ (s.writer w).Sending) (w' : W) :
    (update s.writer w x w').Sending ↔ (s.writer w').Sending := by
  by_cases heq : w' = w
  · subst heq
    rw [update_self]
    exact hx
  · rw [update_of_ne heq]

theorem Inv.waiting_update (h : Inv B want s unread) {w : W} {x : Writer β}
    (hx : ∀ msg, x = .waiting msg → Matches want [] msg ∧ ∀ piece ∈ msg, piece.length < B) :
    ∀ w' msg, update s.writer w x w' = .waiting msg →
      Matches want [] msg ∧ ∀ piece ∈ msg, piece.length < B := by
  exact (Function.forall_update_iff s.writer (p := fun _ x => ∀ msg, x = .waiting msg →
    Matches want [] msg ∧ ∀ piece ∈ msg, piece.length < B)).2 ⟨hx, fun w' _ => h.waiting w'⟩

theorem Inv.send (h : Inv B want s unread) {w : W} {msg : List (List β)} (hidle : s.writer w = .idle)
    (hmsg : Matches want [] msg) (hshort : ∀ piece ∈ msg, piece.length < B) :
    Inv B want { s with writer := update s.writer w (.waiting msg) } unread := by
  have hsending := sending_update (s := s) (w := w) (x := .waiting msg) (by rw [hidle]; exact Iff.rfl)
  exact { h with
    one := fun w₁ w₂ h₁ h₂ => h.one w₁ w₂ ((hsending w₁).1 h₁) ((hsending w₂).1 h₂)
    ownerWriter := fun w' hw' => (hsending w').2 (h.ownerWriter w' hw')
    waiting := h.waiting_update fun msg' hw' => by
      cases hw'
      exact ⟨hmsg, hshort⟩
    sending := by
      intro w' msg' done piece rest hw'
      dsimp only at hw'
      by_cases heq : w' = w
      · subst heq
        rw [update_self] at hw'
        cases hw'
      · rw [update_of_ne heq] at hw'
        exact h.sending w' msg' done piece rest hw'
    nobody := fun hno => h.nobody fun w' hw' => hno w' ((hsending w').2 hw') }

theorem Inv.startWriteNode (h : Inv B want s unread) {w : W} {msg : List (List β)}
    (hw : s.writer w = .waiting msg) (howner : s.owner = none) (hno : ∀ w, ¬ (s.writer w).Sending) :
    Inv B want { s with
      owner := some (.writer w)
      writer := update s.writer w (.sending msg [] [] msg) } unread := by
  obtain ⟨hmsg, hshort⟩ := h.waiting w msg hw
  have honly : ∀ w', (update s.writer w (Writer.sending msg [] [] msg) w').Sending → w' = w := by
    intro w' hw'
    by_contra heq
    rw [update_of_ne heq] at hw'
    exact hno w' hw'
  have haway : s.reader = .away := by
    by_contra hne
    have := h.ownerReader.2 hne
    rw [howner] at this
    cases this
  exact { h with
    one := fun w₁ w₂ h₁ h₂ => (honly w₁ h₁).trans (honly w₂ h₂).symm
    ownerWriter := by
      intro w' hw'
      cases hw'
      dsimp only
      rw [update_self]
      trivial
    ownerReader := ⟨nofun, fun hne => absurd haway hne⟩
    waiting := h.waiting_update nofun
    sending := by
      intro w' msg' done piece rest hw'
      dsimp only at hw'
      obtain rfl := honly w' (by rw [hw']; trivial)
      rw [update_self] at hw'
      cases hw'
      exact ⟨hmsg, rfl, hshort, by rw [append_nil]; exact h.nobody hno⟩
    nobody := by
      intro hno'
      refine absurd ?_ (hno' w)
      dsimp only
      rw [update_self]
      trivial }

theorem Inv.moved (h : Inv B want s unread) {w : W} {msg : List (List β)} {done piece : List β}
    {rest : List (List β)} (hw : s.writer w = .sending msg done piece rest)
    (howner : s.owner = some (.writer w)) {xs piece' : List β} {rest' : List (List β)} {mem : Nat → β}
    {stop : Nat} (WRITING : Bool) (hsame : piece ++ rest.flatten = xs ++ piece' ++ rest'.flatten)
    (hrest : ∀ piece ∈ rest', piece.length < B)
    (hholds : Circular.Holds B mem s.START stop (unread ++ xs)) :
    Inv B want { s with
      mem := mem, END := stop, WRITING := WRITING
      writer := update s.writer w (.sending msg (done ++ xs) piece' rest')
      written := s.written ++ xs } (unread ++ xs) := by
  obtain ⟨hmatches, hmsg, -, hwritten⟩ := h.sending w msg done piece rest hw
  have hsending := sending_update (s := s) (w := w) (x := .sending msg (done ++ xs) piece' rest')
    (by rw [hw]; exact Iff.rfl)
  have honly : ∀ w', (s.writer w').Sending → w' = w := fun w' hw' =>
    h.one w' w hw' (by rw [hw]; trivial)
  exact { h with
    holds := hholds
    unread := by
      dsimp only
      rw [h.unread, append_assoc]
    one := fun w₁ w₂ h₁ h₂ => h.one w₁ w₂ ((hsending w₁).1 h₁) ((hsending w₂).1 h₂)
    ownerWriter := fun w' hw' => (hsending w').2 (h.ownerWriter w' hw')
    waiting := h.waiting_update nofun
    sending := by
      intro w' msg' done' piece'' rest'' hw'
      dsimp only at hw'
      obtain rfl := honly w' ((hsending w').1 (by rw [hw']; trivial))
      rw [update_self] at hw'
      cases hw'
      refine ⟨hmatches, ?_, hrest, by rw [hwritten, append_assoc]⟩
      rw [hmsg, append_assoc, hsame]
      simp only [append_assoc]
    nobody := fun hno => absurd ((hsending w).2 (by rw [hw]; trivial)) (hno w) }

omit [DecidableEq W] in
theorem Inv.owner (h : Inv B want s unread) {owner : Option (Thread W)} (haway : s.reader = .away)
    (howner : ∀ t, owner = some t → ∃ w, t = .writer w ∧ (s.writer w).Sending) :
    Inv B want { s with owner := owner } unread :=
  { h with
    ownerWriter := by
      intro w hw
      obtain ⟨w', heq, hw'⟩ := howner _ hw
      cases heq
      exact hw'
    ownerReader := by
      refine ⟨fun hr => ?_, fun hne => absurd haway hne⟩
      obtain ⟨w', heq, -⟩ := howner _ hr
      cases heq }

omit [DecidableEq W] in
theorem Inv.reader_away (h : Inv B want s unread) (howner : s.owner ≠ some .reader) :
    s.reader = .away := by
  by_contra hne
  exact howner (h.ownerReader.2 hne)

theorem Inv.stopWriteNode (h : Inv B want s unread) {w : W} {msg : List (List β)} {done : List β}
    (hw : s.writer w = .sending msg done [] []) (howner : s.owner = some (.writer w)) :
    Inv B want { s with
      owner := none
      writer := update s.writer w .idle
      sent := if done.isEmpty then s.sent else s.sent ++ [msg] } unread := by
  obtain ⟨hmatches, hmsg, -, hwritten⟩ := h.sending w msg done [] [] hw
  have hmsg' : msg.flatten = done := by simpa using hmsg
  have hno : ∀ w', ¬ (update s.writer w (Writer.idle : Writer β) w').Sending := by
    intro w' hw'
    by_cases heq : w' = w
    · rw [heq, update_self] at hw'
      exact hw'
    · rw [update_of_ne heq] at hw'
      exact heq (h.one w' w hw' (by rw [hw]; trivial))
  have haway := h.reader_away (by rw [howner]; nofun)
  have hsent : s.written = (if done.isEmpty then s.sent else s.sent ++ [msg]).flatten.flatten := by
    rw [hwritten]
    cases done with
    | nil => simp
    | cons b done => simp [hmsg']
  exact { h with
    one := fun w₁ _ h₁ => absurd h₁ (hno w₁)
    ownerWriter := nofun
    ownerReader := ⟨nofun, fun hne => absurd haway hne⟩
    waiting := h.waiting_update nofun
    sending := by
      intro w' msg' done' piece rest hw'
      dsimp only at hw'
      exact absurd (by rw [hw']; trivial) (hno w')
    nobody := fun _ => hsent
    sent := by
      intro msg' hmem
      dsimp only at hmem
      split at hmem
      · exact h.sent msg' hmem
      · rcases mem_append.1 hmem with hmem | hmem
        · exact h.sent msg' hmem
        · rw [mem_singleton.1 hmem]
          exact hmatches
    delivered := by
      dsimp only
      split
      · exact h.delivered
      · exact h.delivered.trans (prefix_append _ _)
    reading := by
      intro got hgot
      dsimp only at hgot
      rw [haway] at hgot
      cases hgot }

theorem Inv.write (h : Inv B want s unread) (hB : B ≤ 2 ^ 16) (w : W) :
    (s.write B w).Meets fun s' => ∃ unread', Inv B want s' unread' := by
  unfold State.write
  split
  case h_2 => trivial
  case h_1 msg done piece rest w' hw howner =>
    split
    case isFalse => trivial
    case isTrue heq =>
    subst heq
    have haway := h.reader_away (by rw [howner]; nofun)
    obtain ⟨-, -, hrest, -⟩ := h.sending w' msg done piece rest hw
    match piece, rest with
    | b :: piece, rest =>
      dsimp only
      unfold State.cpyMemToMpb
      dsimp only
      split
      case isTrue =>
        -- the buffer is full
        exact ⟨unread, h.owner haway nofun⟩
      case isFalse hne =>
        generalize hfree : min (Circular.free B s.START s.END) (b :: piece).length = free at hne
        have hlen : ((b :: piece).take free).length = free :=
          length_take_of_le (by omega)
        have hroom : ((b :: piece).take free).length ≤ Circular.free B s.START s.END := by omega
        have hput := h.holds.put hroom
        rw [hlen] at hput
        rw [uint16_of_lt hB hput.stop_lt]
        refine ⟨unread ++ (b :: piece).take free, h.moved hw howner _ ?_ hrest hput⟩
        rw [take_append_drop]
    | [], piece :: rest =>
      dsimp only
      have hshort := hrest piece mem_cons_self
      rw [if_neg (Nat.not_le_of_lt hshort)]
      have hsame : ([] : List β) ++ (piece :: rest).flatten = [] ++ piece ++ rest.flatten := rfl
      have hmoved := h.moved hw howner true hsame (fun p hp => hrest p (mem_cons_of_mem _ hp))
        (by rw [append_nil]; exact h.holds)
      simp only [append_nil] at hmoved
      exact ⟨unread, hmoved⟩
    | [], [] => exact ⟨unread, h.stopWriteNode hw howner⟩

omit [DecidableEq W] in
theorem Inv.startRead (h : Inv B want s unread) (howner : s.owner = none)
    (hthere : s.received.length < s.sent.length) :
    Inv B want { s with owner := some .reader, reader := .reading [] } unread := by
  have haway := h.reader_away (by rw [howner]; nofun)
  exact { h with
    ownerWriter := nofun
    ownerReader := ⟨nofun, fun _ => rfl⟩
    away := nofun
    reading := by
      intro got hgot
      cases hgot
      refine ⟨by rw [flatten_nil, append_nil]; exact h.away haway, ?_⟩
      -- the message at the front
      obtain ⟨msgs, hsent⟩ := h.delivered
      cases msgs with
      | nil =>
        rw [← hsent, append_nil] at hthere
        exact absurd hthere (Nat.lt_irrefl _)
      | cons msg msgs =>
        have hmem : msg ∈ s.sent := by
          rw [← hsent]
          exact mem_append_right _ mem_cons_self
        exact ⟨msg, msgs, hsent.symm, h.sent msg hmem⟩ }

omit [DecidableEq W] in
theorem Inv.cpyMpbToMem (h : Inv B want s unread) (hB : B ≤ 2 ^ 16) :
    (s.cpyMpbToMem B want).Meets fun s' => ∃ unread', Inv B want s' unread' := by
  unfold State.cpyMpbToMem
  cases hr : s.reader with
  | away => trivial
  | reading got =>
    dsimp only
    obtain ⟨hread, pieces, msgs, hsent, hmatches⟩ := h.reading got hr
    cases pieces with
    | nil =>
      -- the message is at its end
      have hnone : want got = none := hmatches
      rw [hnone]
      rw [append_nil] at hsent
      have howner := h.ownerReader.2 (by rw [hr]; nofun)
      exact ⟨unread, { h with
        ownerWriter := nofun
        ownerReader := ⟨nofun, fun hne => absurd rfl hne⟩
        delivered := ⟨msgs, by simp [hsent]⟩
        away := by
          intro _
          dsimp only
          rw [hread]
          simp
        reading := nofun }⟩
    | cons piece pieces =>
      obtain ⟨hsome, hmatches⟩ := hmatches
      rw [hsome]
      dsimp only
      -- all of the message is there
      obtain ⟨part, hwritten, -⟩ := h.fifo.whole
      have hunread : unread = piece ++ (pieces.flatten ++ msgs.flatten.flatten ++ part) := by
        have hboth := h.unread.symm.trans hwritten
        rw [hread, hsent] at hboth
        simpa using hboth
      rw [hunread] at h
      obtain ⟨hloop, hholds⟩ := cpyLoop_eq h.holds (Nat.le_refl _)
      rw [hloop]
      dsimp only
      rw [uint16_of_lt hB hholds.start_lt]
      exact ⟨pieces.flatten ++ msgs.flatten.flatten ++ part, { h with
        holds := hholds
        unread := by
          dsimp only
          rw [h.unread]
          simp only [append_assoc]
        ownerReader := ⟨fun _ => nofun, fun _ => h.ownerReader.2 (by rw [hr]; nofun)⟩
        away := nofun
        reading := by
          intro got' hgot'
          cases hgot'
          refine ⟨by dsimp only; rw [hread]; simp, pieces, msgs, ?_, hmatches⟩
          rw [hsent]
          simp }⟩

theorem Inv.step (h : Inv B want s unread) (hB : B ≤ 2 ^ 16) {a : Act W β}
    (hok : Surroundings B want s a ∧ InTurn s a) :
    (step B want s a).Meets fun s' => ∃ unread', Inv B want s' unread' := by
  obtain ⟨hsur, hturn⟩ := hok
  cases a with
  | send w msg =>
    unfold Mpb.step
    dsimp only
    cases hw : s.writer w with
    | idle => exact ⟨unread, h.send hw hsur.1 hsur.2⟩
    | waiting msg' => trivial
    | sending msg' done piece rest => trivial
  | startWrite w =>
    change (s.startWriteNode w).Meets _
    unfold State.startWriteNode
    split
    case h_2 => trivial
    case h_1 msg hw howner =>
      split
      · exact ⟨unread, h⟩
      case isFalse hW =>
        exact ⟨unread, h.startWriteNode hw howner (hturn howner (Bool.not_eq_true _ ▸ hW))⟩
  | write w => exact h.write hB w
  | relock w =>
    change (s.relock w).Meets _
    unfold State.relock
    split
    case h_2 => trivial
    case h_1 msg done piece rest hw howner =>
      refine ⟨unread, h.owner (h.reader_away (by rw [howner]; nofun)) fun t ht => ?_⟩
      cases ht
      exact ⟨w, rfl, by rw [hw]; trivial⟩
  | startRead =>
    change (s.startRead).Meets _
    unfold State.startRead
    split
    case h_2 => trivial
    case h_1 hr howner =>
      split
      · exact ⟨unread, h⟩
      case isFalse hne => exact ⟨unread, h.startRead howner (hturn howner hne)⟩
  | read => exact h.cpyMpbToMem hB

omit [DecidableEq W] in
theorem Inv.init (hB : 0 < B) (mem : Nat → β) : Inv B want (State.init mem : State W β) [] where
  holds := Circular.Holds.nil hB
  unread := rfl
  one := nofun
  ownerWriter := nofun
  ownerReader := ⟨nofun, fun h => absurd rfl h⟩
  waiting := nofun
  sending := nofun
  nobody := fun _ => rfl
  sent := nofun
  delivered := prefix_rfl
  away := fun _ => rfl
  reading := nofun

/-! ## Runs -/

theorem Inv.of_reach (hB : 0 < B) (hB' : B ≤ 2 ^ 16) {mem : Nat → β}
    (h : Reach (Mpb.step B want) (fun s a => Surroundings B want s a ∧ InTurn s a) (State.init mem) s) :
    ∃ unread, Inv B want s unread := by
  refine h.invariant (I := fun s => ∃ unread, Inv B want s unread) ⟨[], Inv.init hB mem⟩ ?_
  rintro s a s' ⟨unread, hinv⟩ hok hs
  exact (hinv.step hB' hok).of_done hs

/-- The buffer is a FIFO of messages in all runs in which writers and reader begin in turn. -/
theorem fifo_of_inTurn (B : Nat) (hB : 0 < B) (hB' : B ≤ 2 ^ 16) (want : List (List β) → Option Nat)
    (mem : Nat → β) (s : State W β)
    (h : Reach (step B want) (fun s a => Surroundings B want s a ∧ InTurn s a) (State.init mem) s) :
    Fifo s := by
  obtain ⟨unread, hinv⟩ := Inv.of_reach hB hB' h
  exact hinv.fifo

/-- A writer sends a message of two pieces and the reader reads it. -/
theorem fifo_of_inTurn_one :
    ∃ s : State Nat Nat, runAll (step 8 fun got => ([1, 2] : List Nat)[got.length]?) (State.init fun _ => 0)
      [.send 0 [[5], [6, 7]], .startWrite 0, .write 0, .write 0, .write 0, .write 0, .write 0,
        .startRead, .read, .read, .read] = .done s ∧ s.received = [[[5], [6, 7]]] ∧ Fifo s := by
  have hok : Permitted (step 8 fun got => ([1, 2] : List Nat)[got.length]?)
      (fun s a => Surroundings 8 (fun got => ([1, 2] : List Nat)[got.length]?) s a ∧ InTurn s a)
      (State.init fun _ => 0 : State Nat Nat)
      [.send 0 [[5], [6, 7]], .startWrite 0, .write 0, .write 0, .write 0, .write 0, .write 0,
        .startRead, .read, .read, .read] := by
    refine ⟨⟨⟨⟨rfl, rfl, rfl⟩, by simp⟩, trivial⟩, fun s hs => ?_⟩
    cases hs
    refine ⟨⟨trivial, fun _ _ w hw => ?_⟩, fun s hs => ?_⟩
    · by_cases heq : w = 0
      · rw [heq] at hw
        exact hw
      · dsimp only at hw
        rw [update_of_ne heq] at hw
        exact hw
    cases hs
    refine ⟨⟨trivial, trivial⟩, fun s hs => ?_⟩
    cases hs
    refine ⟨⟨trivial, trivial⟩, fun s hs => ?_⟩
    cases hs
    refine ⟨⟨trivial, trivial⟩, fun s hs => ?_⟩
    cases hs
    refine ⟨⟨trivial, trivial⟩, fun s hs => ?_⟩
    cases hs
    refine ⟨⟨trivial, trivial⟩, fun s hs => ?_⟩
    cases hs
    refine ⟨⟨trivial, fun _ _ => Nat.zero_lt_one⟩, fun s hs => ?_⟩
    cases hs
    refine ⟨⟨trivial, trivial⟩, fun s hs => ?_⟩
    cases hs
    refine ⟨⟨trivial, trivial⟩, fun s hs => ?_⟩
    cases hs
    exact ⟨⟨trivial, trivial⟩, fun _ _ => trivial⟩
  exact ⟨_, rfl, rfl, fifo_of_inTurn 8 (by decide) (by decide) _ _ _ (Reach.init.of_runAll hok rfl)⟩

/-- The buffer is full before a writer is at the end of its message; it gives up the lock, and the reader
copies a byte that has not been written. -/
theorem reads_beyond : ∃ s : State Nat Nat,
    Reach (step 4 fun got => ([2, 2] : List Nat)[got.length]?)
      (Surroundings 4 fun got => ([2, 2] : List Nat)[got.length]?) (State.init fun _ => 0) s ∧
    s.written = [1, 2, 3] ∧ s.read = [1, 2, 3, 0] ∧ ¬ Fifo s := by
  have hok : Permitted (step 4 fun got => ([2, 2] : List Nat)[got.length]?)
      (Surroundings 4 fun got => ([2, 2] : List Nat)[got.length]?) (State.init fun _ => 0 : State Nat Nat)
      [.send 0 [[1, 2], [3, 4]], .startWrite 0, .write 0, .write 0, .write 0, .write 0, .write 0,
        .startRead, .read, .read] := by
    refine ⟨⟨⟨rfl, rfl, rfl⟩, by simp⟩, fun s hs => permitted_of_forall _ ?_ s⟩
    intro a ha s
    cases a with
    | send w msg => simp at ha
    | _ => trivial
  refine ⟨_, Reach.init.of_runAll hok rfl, rfl, rfl, fun h => ?_⟩
  have := h.inOrder.length_le
  exact absurd this (by decide)

/-! ## The lock is kept -/

/-- A writer finds the buffer full only while it has not written anything of its message. -/
def KeepsLock (B : Nat) (s : State W β) : Act W β → Prop
  | .write w => ∀ msg done piece rest, s.writer w = .sending msg done piece rest → piece ≠ [] →
      Circular.free B s.START s.END = 0 → done = []
  | _ => True

/-- A writer without the lock has not written anything, and `WRITING` keeps the others away. -/
def Guarded (s : State W β) : Prop :=
  ∀ w msg done piece rest, s.writer w = .sending msg done piece rest →
    (done = [] → piece ≠ [] → s.WRITING = true) ∧
      (s.owner ≠ some (.writer w) → done = [] ∧ piece ≠ [])

omit [DecidableEq W] in
theorem Guarded.inTurn (hg : Guarded s) (h : Inv B want s unread) (a : Act W β) : InTurn s a := by
  have hsending : ∀ w, s.owner = none → (s.writer w).Sending →
      ∃ msg piece rest, s.writer w = .sending msg [] piece rest ∧ s.WRITING = true := by
    intro w howner hw
    cases hwr : s.writer w with
    | idle => exact absurd hw (by rw [hwr]; exact id)
    | waiting msg => exact absurd hw (by rw [hwr]; exact id)
    | sending msg done piece rest =>
      obtain ⟨hW, hno⟩ := hg w msg done piece rest hwr
      obtain ⟨rfl, hne⟩ := hno (by rw [howner]; nofun)
      exact ⟨msg, piece, rest, rfl, hW rfl hne⟩
  cases a with
  | startWrite w =>
    intro howner hW w' hw'
    obtain ⟨-, -, -, -, hW'⟩ := hsending w' howner hw'
    rw [hW] at hW'
    cases hW'
  | startRead =>
    intro howner hne
    by_contra hlen
    -- all messages have been read, so nothing is left
    obtain ⟨msgs, hmsgs⟩ := h.delivered
    have hlen' := congrArg List.length hmsgs
    rw [length_append] at hlen'
    obtain rfl : msgs = [] := length_eq_zero_iff.1 (by omega)
    rw [append_nil] at hmsgs
    have hread := h.away (h.reader_away (by rw [howner]; nofun))
    have hwritten : s.written = s.sent.flatten.flatten := by
      by_cases hnobody : ∀ w, ¬ (s.writer w).Sending
      · exact h.nobody hnobody
      · simp only [not_forall, not_not] at hnobody
        obtain ⟨w, hw⟩ := hnobody
        obtain ⟨msg, piece, rest, hwr, -⟩ := hsending w howner hw
        have := (h.sending w msg [] piece rest hwr).2.2.2
        rwa [append_nil] at this
    exact hne (h.fifo.empty.2 (by rw [hread, hwritten, hmsgs]))
  | _ => trivial

theorem Guarded.update (h : Inv B want s unread) {w : W} (hw : (s.writer w).Sending) {x : Writer β}
    {s' : State W β} (hs' : s'.writer = update s.writer w x)
    (hx : ∀ msg done piece rest, x = .sending msg done piece rest →
      (done = [] → piece ≠ [] → s'.WRITING = true) ∧
        (s'.owner ≠ some (.writer w) → done = [] ∧ piece ≠ [])) : Guarded s' := by
  intro w' msg done piece rest hw'
  rw [hs'] at hw'
  by_cases heq : w' = w
  · subst heq
    rw [update_self] at hw'
    exact hx msg done piece rest hw'
  · rw [update_of_ne heq] at hw'
    exact absurd (h.one w' w (by rw [hw']; trivial) hw) heq

theorem Guarded.write (hg : Guarded s) (h : Inv B want s unread) {w : W}
    (hkeeps : KeepsLock B s (.write w)) (hs : s.write B w = .done s') : Guarded s' := by
  unfold State.write at hs
  split at hs
  case h_2 => cases hs
  case h_1 msg done piece rest w' hw howner =>
    split at hs
    case isFalse => cases hs
    case isTrue heq =>
    subst heq
    have hwSending : (s.writer w').Sending := by
      rw [hw]
      trivial
    match piece, rest with
    | b :: piece, rest =>
      cases hs
      unfold State.cpyMemToMpb
      dsimp only
      split
      case isTrue hfull =>
        intro w msg' done' piece' rest' hw'
        dsimp only at hw' ⊢
        obtain rfl := h.one w w' (by rw [hw']; trivial) hwSending
        rw [hw] at hw'
        cases hw'
        have hdone : done = [] := hkeeps msg done (b :: piece) rest hw (cons_ne_nil _ _) (by
          rw [length_cons] at hfull
          omega)
        exact ⟨(hg _ _ _ _ _ hw).1, fun _ => ⟨hdone, cons_ne_nil _ _⟩⟩
      case isFalse hne =>
        refine Guarded.update h hwSending rfl ?_
        intro msg' done' piece' rest' hx
        cases hx
        refine ⟨fun hnil => ?_, fun hno => absurd howner hno⟩
        have := congrArg List.length hnil
        rw [length_append, length_take, length_nil] at this
        omega
    | [], piece :: rest =>
      dsimp only at hs
      split at hs
      · cases hs
      · cases hs
        refine Guarded.update h hwSending rfl ?_
        intro msg' done' piece' rest' hx
        cases hx
        exact ⟨fun _ _ => rfl, fun hno => absurd howner hno⟩
    | [], [] =>
      cases hs
      exact Guarded.update h hwSending rfl nofun

theorem Guarded.step (hg : Guarded s) (h : Inv B want s unread) {a : Act W β} (hkeeps : KeepsLock B s a)
    (hs : step B want s a = .done s') : Guarded s' := by
  have hturn := hg.inTurn h a
  cases a with
  | send w msg =>
    unfold Mpb.step at hs
    dsimp only at hs
    split at hs
    case h_2 => cases hs
    case h_1 hidle =>
      cases hs
      intro w' msg' done piece rest hw'
      dsimp only at hw' ⊢
      by_cases heq : w' = w
      · subst heq
        rw [update_self] at hw'
        cases hw'
      · rw [update_of_ne heq] at hw'
        exact hg w' msg' done piece rest hw'
  | startWrite w =>
    change s.startWriteNode w = _ at hs
    unfold State.startWriteNode at hs
    split at hs
    case h_2 => cases hs
    case h_1 msg hw howner =>
      split at hs
      · cases hs
        exact hg
      case isFalse hW =>
        cases hs
        intro w' msg' done piece rest hw'
        dsimp only at hw' ⊢
        by_cases heq : w' = w
        · subst heq
          rw [update_self] at hw'
          cases hw'
          exact ⟨fun _ hne => absurd rfl hne, fun hno => absurd rfl hno⟩
        · rw [update_of_ne heq] at hw'
          exact absurd (by rw [hw']; trivial) (hturn howner (Bool.not_eq_true _ ▸ hW) w')
  | write w => exact hg.write h hkeeps hs
  | relock w =>
    change s.relock w = _ at hs
    unfold State.relock at hs
    split at hs
    case h_2 => cases hs
    case h_1 msg done piece rest hw howner =>
      cases hs
      intro w' msg' done' piece' rest' hw'
      obtain rfl := h.one w' w (by rw [show s.writer w' = _ from hw']; trivial) (by rw [hw]; trivial)
      exact ⟨(hg _ _ _ _ _ hw').1, fun hno => absurd rfl hno⟩
  | startRead =>
    change s.startRead = _ at hs
    unfold State.startRead at hs
    split at hs
    case h_2 => cases hs
    case h_1 hr howner =>
      split at hs
      · cases hs
        exact hg
      · cases hs
        intro w msg done piece rest hw
        exact ⟨(hg w msg done piece rest hw).1, fun _ =>
          (hg w msg done piece rest hw).2 (by rw [howner]; nofun)⟩
  | read =>
    change s.cpyMpbToMem B want = _ at hs
    unfold State.cpyMpbToMem at hs
    split at hs
    case h_1 => cases hs
    case h_2 got hr =>
      have howner := h.ownerReader.2 (by rw [hr]; nofun)
      split at hs
      · cases hs
        intro w msg done piece rest hw
        exact ⟨(hg w msg done piece rest hw).1, fun _ =>
          (hg w msg done piece rest hw).2 (by rw [howner]; nofun)⟩
      · cases hs
        exact hg

theorem inTurn_of_keepsLock (hB : 0 < B) (hB' : B ≤ 2 ^ 16) {mem : Nat → β}
    (h : Reach (Mpb.step B want) (fun s a => Surroundings B want s a ∧ KeepsLock B s a) (State.init mem) s) :
    Reach (Mpb.step B want) (fun s a => Surroundings B want s a ∧ InTurn s a) (State.init mem) s ∧
      Guarded s := by
  induction h with
  | init => exact ⟨.init, nofun⟩
  | step _ hok hs ih =>
    obtain ⟨hreach, hg⟩ := ih
    obtain ⟨unread, hinv⟩ := Inv.of_reach hB hB' hreach
    exact ⟨.step hreach ⟨hok.1, hg.inTurn hinv _⟩ hs, hg.step hinv hok.2 hs⟩

/-- The buffer is a FIFO of messages when a writer finds it full only before the first byte of a message. -/
theorem fifo_of_keepsLock (hB : 0 < B) (hB' : B ≤ 2 ^ 16) {mem : Nat → β}
    (h : Reach (Mpb.step B want) (fun s a => Surroundings B want s a ∧ KeepsLock B s a) (State.init mem) s) :
    Fifo s := by
  obtain ⟨unread, hinv⟩ := Inv.of_reach hB hB' (inTurn_of_keepsLock hB hB' h).1
  exact hinv.fifo

theorem fifo_of_keepsLock_byte : ∃ s : State Nat Nat,
    runAll (step 2 fun got => ([1] : List Nat)[got.length]?) (State.init fun _ => 0)
      [.send 0 [[5]], .startWrite 0, .write 0, .write 0, .write 0, .startRead, .read, .read] = .done s ∧
    s.received = [[[5]]] ∧ Fifo s := by
  have hok : Permitted (step 2 fun got => ([1] : List Nat)[got.length]?)
      (fun s a => Surroundings 2 (fun got => ([1] : List Nat)[got.length]?) s a ∧ KeepsLock 2 s a)
      (State.init fun _ => 0 : State Nat Nat)
      [.send 0 [[5]], .startWrite 0, .write 0, .write 0, .write 0, .startRead, .read, .read] := by
    refine ⟨⟨⟨⟨rfl, rfl⟩, by simp⟩, trivial⟩, fun s hs => ?_⟩
    cases hs
    refine ⟨⟨trivial, trivial⟩, fun s hs => ?_⟩
    cases hs
    refine ⟨⟨trivial, fun _ _ _ _ hw hne => ?_⟩, fun s hs => ?_⟩
    · cases hw
      exact absurd rfl hne
    cases hs
    refine ⟨⟨trivial, fun _ _ _ _ hw _ _ => ?_⟩, fun s hs => ?_⟩
    · cases hw
      rfl
    cases hs
    refine ⟨⟨trivial, fun _ _ _ _ hw hne => ?_⟩, fun s _ => permitted_of_forall _ ?_ s⟩
    · cases hw
      exact absurd rfl hne
    · intro a ha s
      cases a with
      | startRead | read => exact ⟨trivial, trivial⟩
      | send _ _ | startWrite _ | write _ | relock _ => simp at ha
  exact ⟨_, rfl, rfl, fifo_of_keepsLock (by decide) (by decide) (Reach.init.of_runAll hok rfl)⟩

end SNet.Distrib.Mpb
