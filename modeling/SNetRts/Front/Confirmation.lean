import SNetRts.Lib.Pattern
import SNetRts.Lib.Scan
import Mathlib.Data.List.Basic

/-!
# Replies to interactive observers

`GetConfirmation` of `runtime/front/xobserve.c`. The buffer is resized after the first chunk and whenever less
than 1024 bytes are left of it, but what `SNetMemResize` returns is not assigned to `buf`. The number of a reply
is terminated in the buffer, so that nothing behind the first reply is ever looked at.
-/

namespace SNet.Confirmation

open Lib Pattern RegularExpression List
open Scan (isDigit value)

/-! ## The pattern -/

/-- `[ \n\t]` -/
def blank : RegularExpression UInt8 := oneOf (ascii " \n\t")

def xmlns : RegularExpression UInt8 := lit (ascii "xmlns=\"snet-home.org\"")

/-- `pattern`, whose third group is the number. -/
def pattern : Grouped UInt8 where
  before := optional (lit (ascii "<?xml") * oneOrMore blank * lit (ascii "version=\"1.0\"") * blank.star *
      lit (ascii "?>")) *
    lit (ascii "<observer") * oneOrMore blank * optional (xmlns * oneOrMore blank) * lit (ascii "oid=\"")
  group := oneOrMore (oneOf (ascii "0123456789"))
  after := lit (ascii "\"") * (optional (oneOrMore blank * xmlns * oneOrMore blank) * blank.star *
    (lit (ascii "/>") + lit (ascii ">") * blank.star * lit (ascii "</observer") * blank.star * lit (ascii ">")))

/-- `regexec`: where the number of the first reply begins and ends. -/
def regexec (s : List UInt8) : Option (Nat × Nat) := pattern.find s

/-! ## Waiting for a reply -/

/-- What is not determined by the program: whether a block that is resized is moved, and what `sscanf` makes of
a number that is no `int`. -/
structure Env where
  moves : Nat → Bool
  scan : List UInt8 → Int
  scan_eq : ∀ d, d ≠ [] → (∀ c ∈ d, isDigit c = true) → value d < 2147483648 → scan d = value d

/-- The block that `buf` points to; `text` are the bytes up to `off`. -/
structure Buffer where
  size : Nat
  capacity : Nat
  live : Bool
  text : List UInt8

def Buffer.init : Buffer := ⟨1024, 1025, true, []⟩

inductive Status where
  | waiting (buf : Buffer)
  | confirmed
  /-- Something has been written outside of the memory. -/
  | overrun

def cString (text : List UInt8) : List UInt8 := text.takeWhile (· ≠ 0)

/-- `SNetMemResize` is called where little is left. -/
def Buffer.grow (env : Env) (n : Nat) (buf : Buffer) : Buffer :=
  if buf.size < buf.text.length + 1024 then
    { buf with size := buf.size + buf.size, capacity := buf.size + buf.size, live := buf.live && !env.moves n }
  else buf

/-- A round of `GetConfirmation` in which a chunk is received. -/
def round (env : Env) (oid : Int) (n : Nat) (buf : Buffer) (chunk : List UInt8) : Status :=
  let text := buf.text ++ chunk
  -- the last byte that is written is the terminator
  if buf.live = true ∧ text.length < buf.capacity then
    match regexec (cString text) with
    | none => .waiting ({ buf with text := text }.grow env n)
    | some (so, eo) =>
      if env.scan (((cString text).take eo).drop so) = oid then .confirmed
      else .waiting ({ buf with text := text.set eo 0 }.grow env n)
  else .overrun

variable (env : Env) (oid : Int) (chunk : Nat → List UInt8)

/-- `GetConfirmation` after `n` chunks. -/
def after : Nat → Status
  | 0 => .waiting .init
  | n + 1 =>
    match after n with
    | .waiting buf => round env oid n buf (chunk n)
    | status => status

/-- The text of the first `n` chunks. -/
def received : Nat → List UInt8
  | 0 => []
  | n + 1 => received n ++ chunk n

/-- The size of the buffer after `n` chunks. -/
def bufSize : Nat → Nat
  | 0 => 1024
  | n + 1 =>
    if bufSize n < (received chunk (n + 1)).length + 1024 then bufSize n + bufSize n else bufSize n

/-- What `recv` may give in the first `n` rounds. -/
def Chunks (n : Nat) : Prop :=
  ∀ k < n, chunk k ≠ [] ∧ (chunk k).length ≤ bufSize chunk k - (received chunk k).length

def Carries (text : List UInt8) : Prop := ∃ d, pattern.Contains text d ∧ (value d : Int) = oid

/-- What is wanted of the first `n` rounds: all bytes are written into the memory of the buffer, and the reply is
noticed at once. -/
def Works (n : Nat) : Prop :=
  ∀ k ≤ n, after env oid chunk k ≠ .overrun ∧
    (Carries oid (received chunk k) → after env oid chunk k = .confirmed)

/-! ## When it works -/

/-- The first text in which there is a reply at all has the number in its first reply. -/
def ConfirmedAt (n : Nat) : Prop :=
  (∀ k < n, regexec (cString (received chunk k)) = none) ∧
    ∃ so eo, regexec (cString (received chunk n)) = some (so, eo) ∧
      env.scan (((cString (received chunk n)).take eo).drop so) = oid

def Answered (n : Nat) : Prop := ∃ k ≤ n, ConfirmedAt env oid chunk k

def InPlace (n : Nat) : Prop :=
  ∀ k < n, bufSize chunk k < (received chunk (k + 1)).length + 1024 → env.moves k = false

/-- A chunk after the first one is received into a buffer that has not been moved and leaves space for the
terminator, and a reply that is waited for is the first one. -/
def Condition (n : Nat) : Prop :=
  ∀ k < n, (k ≠ 0 → ¬ Answered env oid chunk k →
      InPlace env chunk k ∧ (received chunk (k + 1)).length ≠ bufSize chunk k) ∧
    (Carries oid (received chunk (k + 1)) → Answered env oid chunk (k + 1))

/-! ## Replies -/

section

variable {s a b d p t : List UInt8} {so eo : Nat}

theorem over_blank {q : UInt8 → Prop} (h : ∀ c ∈ ascii " \n\t", q c) : Over q blank := over_oneOf h

theorem mem_before (ha : a ∈ pattern.before.matches') :
    ∃ a₀, (100 : UInt8) ∉ a₀ ∧ a = a₀ ++ 100 :: [61, 34] := by
  obtain ⟨a₁, ha₁, a₂, ha₂, rfl⟩ := Language.mem_mul.1 ha
  rw [matches_lit] at ha₂
  cases ha₂
  have hlit : ∀ {l : List UInt8}, (100 : UInt8) ∉ l → Over (· ≠ (100 : UInt8)) (lit l) := fun hl =>
    over_lit (forall_mem_ne'.2 hl)
  have hblank : Over (· ≠ (100 : UInt8)) blank := over_blank (forall_mem_ne'.2 (by decide))
  have hxmlns : Over (· ≠ (100 : UInt8)) xmlns := hlit (by decide)
  have hfront : ∀ c ∈ a₁, c ≠ (100 : UInt8) := by
    refine Over.mul (Over.mul (Over.mul (Over.optional ?_) (hlit (by decide))) hblank.oneOrMore)
      (Over.optional (hxmlns.mul hblank.oneOrMore)) a₁ ha₁
    exact ((((hlit (by decide)).mul hblank.oneOrMore).mul (hlit (by decide))).mul hblank.star).mul
      (hlit (by decide))
  refine ⟨a₁ ++ [111, 105], ?_, ?_⟩
  · intro hmem
    obtain hmem | hmem := mem_append.1 hmem
    · exact hfront 100 hmem rfl
    · exact absurd hmem (by decide)
  · rw [append_assoc]
    rfl

theorem mem_group (hd : d ∈ pattern.group.matches') : d ≠ [] ∧ ∀ c ∈ d, isDigit c = true := by
  constructor
  · refine ne_nil_of_oneOrMore ?_ hd
    intro hnil
    obtain ⟨c, -, hc⟩ := mem_oneOf.1 hnil
    cases hc
  · exact Over.oneOrMore (over_oneOf (all_eq_true.1 (by decide))) d hd

theorem mem_after (hb : b ∈ pattern.after.matches') : ∃ b₀, b = 34 :: b₀ := by
  obtain ⟨b₁, hb₁, b₂, -, rfl⟩ := Language.mem_mul.1 hb
  rw [matches_lit] at hb₁
  cases hb₁
  exact ⟨b₂, rfl⟩

theorem not_mem_digits {c : UInt8} (hc : isDigit c = false) (hd : d ∈ pattern.group.matches') : c ∉ d := by
  intro hmem
  rw [(mem_group hd).2 c hmem] at hc
  cases hc

theorem split_unique {c : UInt8} {l₁ l₂ r₁ r₂ : List UInt8} (h₁ : c ∉ l₁) (h₂ : c ∉ l₂)
    (h : l₁ ++ c :: r₁ = l₂ ++ c :: r₂) : l₁ = l₂ ∧ r₁ = r₂ := by
  have hfront : ∀ {l : List UInt8} (r : List UInt8), c ∉ l → (l ++ c :: r).takeWhile (· ≠ c) = l := by
    intro l r hl
    apply Scan.takeWhile_eq
    · intro x hx
      rw [decide_eq_true_eq]
      rintro rfl
      exact hl hx
    · rw [decide_eq_false_iff_not, not_not]
  have heq : l₁ = l₂ := by rw [← hfront r₁ h₁, h, hfront r₂ h₂]
  subst heq
  exact ⟨rfl, (List.cons.inj (append_cancel_left h)).2⟩

theorem regexec_eq (ha : a ∈ pattern.before.matches') (hd : d ∈ pattern.group.matches')
    (hb : b ∈ pattern.after.matches') : regexec (a ++ (d ++ (b ++ t))) = some (a.length, (a ++ d).length) := by
  have hmatch := Grouped.isMatch_append (p := []) (t := t) ha hd hb
  cases hfind : pattern.find (a ++ (d ++ (b ++ t))) with
  | none => exact absurd hmatch (Grouped.find_eq_none hfind _ _ _ _)
  | some r =>
    obtain ⟨so, eo⟩ := r
    obtain ⟨i, j, hfirst, hleft⟩ := Grouped.find_eq_some hfind
    have hi : i = 0 := by
      by_contra hne
      exact hleft 0 (Nat.pos_of_ne_zero hne) _ _ _ hmatch
    subst hi
    obtain ⟨p', a', d', b', t', hsplit, hp, hso, heo, ha', hd', hb'⟩ := hfirst.split
    rw [length_eq_zero_iff] at hp
    subst hp
    obtain ⟨a₀, hfront, rfl⟩ := mem_before ha
    obtain ⟨a₁, hfront', rfl⟩ := mem_before ha'
    obtain ⟨b₀, rfl⟩ := mem_after hb
    obtain ⟨b₁, rfl⟩ := mem_after hb'
    rw [nil_append, append_assoc, append_assoc] at hsplit
    obtain ⟨rfl, hrest⟩ := split_unique hfront hfront' hsplit
    have hdigits := (split_unique (not_mem_digits rfl hd) (not_mem_digits rfl hd')
      (List.cons.inj (List.cons.inj hrest).2).2).1
    rw [regexec, hfind, ← hso, ← heo, hdigits]
    rfl

theorem regexec_eq_none (h : (100 : UInt8) ∉ s) : regexec s = none := by
  cases hfind : pattern.find s with
  | none => exact hfind
  | some r =>
    obtain ⟨so, eo⟩ := r
    obtain ⟨i, j, hfirst, -⟩ := Grouped.find_eq_some hfind
    obtain ⟨p, a, d, b, t, rfl, -, -, -, ha, -, -⟩ := hfirst.split
    obtain ⟨a₀, -, rfl⟩ := mem_before ha
    exact absurd (by simp) h

theorem regexec_take (h : regexec s = some (so, eo)) : regexec (s.take eo) = none := by
  obtain ⟨i, j, hfirst, hleft⟩ := Grouped.find_eq_some h
  obtain ⟨p, a, d, b, t, hs, hp, -, heo, ha, hd, -⟩ := hfirst.split
  cases hfind : pattern.find (s.take eo) with
  | none => exact hfind
  | some r =>
    exfalso
    obtain ⟨so', eo'⟩ := r
    obtain ⟨i', j', hlater, -⟩ := Grouped.find_eq_some hfind
    obtain ⟨p', a', d', b', t', hsplit, hp', -, -, ha', hd', hb'⟩ := hlater.split
    have htake : s.take eo = p ++ (a ++ d) := by
      rw [hs, ← heo, show p ++ (a ++ (d ++ (b ++ t))) = p ++ (a ++ d) ++ (b ++ t) by
        simp only [append_assoc], take_left]
    -- the later reply is one of the whole text, so that it does not begin before the first one
    have hle : p.length ≤ p'.length := by
      by_contra hlt
      have hwhole := Grouped.isMatch_append (p := p') (t := t' ++ s.drop eo) ha' hd' hb'
      have htext : p' ++ (a' ++ (d' ++ (b' ++ (t' ++ s.drop eo)))) = s := by
        conv_rhs => rw [← take_append_drop eo s, hsplit]
        simp only [append_assoc]
      rw [htext] at hwhole
      exact hleft _ (by omega) _ _ _ hwhole
    rw [htake] at hsplit
    obtain ⟨x, hx⟩ : ∃ x, p' = p ++ x := by
      have hprefix : p <+: p' := by
        apply prefix_of_prefix_length_le (show p <+: p ++ (a ++ d) from prefix_append _ _) _ hle
        rw [hsplit]
        exact prefix_append _ _
      obtain ⟨x, hx⟩ := hprefix
      exact ⟨x, hx.symm⟩
    rw [hx, append_assoc] at hsplit
    have hinner := append_cancel_left hsplit
    obtain ⟨a₀, hfront, rfl⟩ := mem_before ha
    obtain ⟨a₁, -, rfl⟩ := mem_before ha'
    obtain ⟨b₀, rfl⟩ := mem_after hb'
    have hback : (100 : UInt8) ∉ [61, 34] ++ d := by
      intro hmem
      obtain hmem | hmem := mem_append.1 hmem
      · exact absurd hmem (by decide)
      · exact not_mem_digits rfl hd hmem
    -- the last letter of the name of the attribute occurs once
    have hword : a₀ ++ 100 :: ([61, 34] ++ d) = (x ++ a₁) ++ 100 :: ([61, 34] ++ (d' ++ (34 :: b₀ ++ t'))) := by
      rwa [append_assoc, append_assoc, ← append_assoc x] at hinner
    have hrest := ((append_cons_inj_of_notMem hfront hback).1 hword).2.2
    have hdigits := append_cancel_left hrest
    have hquote : (34 : UInt8) ∈ d := by
      rw [hdigits]
      exact mem_append_right _ mem_cons_self
    exact not_mem_digits rfl hd hquote

theorem cString_append (hs : 0 ∈ s) (t : List UInt8) : cString (s ++ t) = cString s := by
  induction s with
  | nil => cases hs
  | cons c s ih =>
    by_cases hc : c = 0
    · subst hc
      rfl
    · have hmem : 0 ∈ s := by
        obtain h | h := mem_cons.1 hs
        · exact absurd h.symm hc
        · exact h
      have hcons : ∀ u, cString (c :: u) = c :: cString u := fun u =>
        takeWhile_cons_of_pos (by rw [decide_eq_true_eq]; exact hc)
      rw [cons_append, hcons, hcons, ih hmem]

theorem lt_of_regexec (h : regexec s = some (so, eo)) : eo < s.length := by
  obtain ⟨i, j, hfirst, -⟩ := Grouped.find_eq_some h
  obtain ⟨p, a, d, b, t, rfl, -, -, rfl, -, -, hb⟩ := hfirst.split
  obtain ⟨b₀, rfl⟩ := mem_after hb
  simp only [length_append, length_cons]
  omega

theorem cString_set (h : regexec (cString s) = some (so, eo)) :
    0 ∈ s.set eo 0 ∧ cString (s.set eo 0) = (cString s).take eo := by
  have hlt := lt_of_regexec h
  obtain ⟨t, ht⟩ := takeWhile_prefix (· ≠ (0 : UInt8)) (l := s)
  change cString s ++ t = s at ht
  have hset : s.set eo 0 = (cString s).take eo ++ 0 :: ((cString s).drop (eo + 1) ++ t) := by
    conv_lhs => rw [← ht, set_append_left eo 0 hlt, set_eq_take_append_cons_drop, if_pos hlt]
    rw [append_assoc, cons_append]
  rw [hset]
  constructor
  · exact mem_append_right _ mem_cons_self
  · apply Scan.takeWhile_eq
    · intro x hx
      have hmem : x ∈ s.takeWhile (· ≠ 0) := mem_of_mem_take hx
      exact mem_takeWhile_imp (p := fun x : UInt8 => decide (x ≠ 0)) hmem
    · rfl

end

/-! ## Runs -/

variable {env oid chunk}

/-- A buffer after `n` chunks: it holds what has been received, or there has been a reply and it holds no reply
that could be found. -/
structure Waits (env : Env) (oid : Int) (chunk : Nat → List UInt8) (n : Nat) (buf : Buffer) : Prop where
  size : buf.size = bufSize chunk n
  capacity : buf.capacity = if n = 0 then 1025 else bufSize chunk n
  live : buf.live = true ↔ InPlace env chunk n
  length : buf.text.length = (received chunk n).length
  unanswered : ¬ Answered env oid chunk n
  text : (buf.text = received chunk n ∧ ∀ k ≤ n, regexec (cString (received chunk k)) = none) ∨
    (0 ∈ buf.text ∧ regexec (cString buf.text) = none ∧ ∃ k ≤ n, regexec (cString (received chunk k)) ≠ none)

def Safe (env : Env) (chunk : Nat → List UInt8) (n : Nat) : Prop :=
  n ≠ 0 → InPlace env chunk n ∧ (received chunk (n + 1)).length ≠ bufSize chunk n

section

variable {n : Nat} {buf : Buffer}

theorem length_le (h : chunk n ≠ [] ∧ (chunk n).length ≤ bufSize chunk n - (received chunk n).length) :
    (received chunk (n + 1)).length ≤ bufSize chunk n ∧ 0 < (received chunk (n + 1)).length := by
  have hpos := length_pos_of_ne_nil h.1
  have hle := h.2
  rw [received, length_append]
  omega

theorem inPlace_succ : InPlace env chunk (n + 1) ↔ InPlace env chunk n ∧
    (bufSize chunk n < (received chunk (n + 1)).length + 1024 → env.moves n = false) := by
  constructor
  · intro h
    exact ⟨fun k hk => h k (Nat.lt_succ_of_lt hk), h n (Nat.lt_succ_self n)⟩
  · rintro ⟨h, hn⟩ k hk
    obtain hk | rfl := Nat.lt_succ_iff_lt_or_eq.1 hk
    · exact h k hk
    · exact hn

theorem Waits.safe_iff (h : Waits env oid chunk n buf)
    (hchunk : chunk n ≠ [] ∧ (chunk n).length ≤ bufSize chunk n - (received chunk n).length) :
    buf.live = true ∧ (buf.text ++ chunk n).length < buf.capacity ↔ Safe env chunk n := by
  obtain ⟨hle, -⟩ := length_le hchunk
  have hlen : (buf.text ++ chunk n).length = (received chunk (n + 1)).length := by
    rw [received, length_append, length_append, h.length]
  rw [Safe, hlen, h.live, h.capacity]
  by_cases hn : n = 0
  · subst hn
    rw [if_pos rfl]
    exact iff_of_true ⟨fun k hk => absurd hk (Nat.not_lt_zero k), Nat.lt_succ_of_le hle⟩ fun hne => absurd rfl hne
  · rw [if_neg hn]
    constructor
    · rintro ⟨hplace, hlt⟩ _
      exact ⟨hplace, Nat.ne_of_lt hlt⟩
    · intro hsafe
      obtain ⟨hplace, hne⟩ := hsafe hn
      exact ⟨hplace, Nat.lt_of_le_of_ne hle hne⟩

theorem Waits.grow (h : Waits env oid chunk n buf)
    (hchunk : chunk n ≠ [] ∧ (chunk n).length ≤ bufSize chunk n - (received chunk n).length) {t : List UInt8}
    (hlen : t.length = (received chunk (n + 1)).length) (hunanswered : ¬ Answered env oid chunk (n + 1))
    (ht : (t = received chunk (n + 1) ∧ ∀ k ≤ n + 1, regexec (cString (received chunk k)) = none) ∨
      (0 ∈ t ∧ regexec (cString t) = none ∧ ∃ k ≤ n + 1, regexec (cString (received chunk k)) ≠ none)) :
    Waits env oid chunk (n + 1) ({ buf with text := t }.grow env n) := by
  obtain ⟨-, hpos⟩ := length_le hchunk
  have htest : buf.size < t.length + 1024 ↔ bufSize chunk n < (received chunk (n + 1)).length + 1024 := by
    rw [h.size, hlen]
  by_cases hgrow : bufSize chunk n < (received chunk (n + 1)).length + 1024
  · have hbuf : Buffer.grow env n { buf with text := t } =
        ⟨buf.size + buf.size, buf.size + buf.size, buf.live && !env.moves n, t⟩ := if_pos (htest.2 hgrow)
    have hsize : bufSize chunk (n + 1) = bufSize chunk n + bufSize chunk n := if_pos hgrow
    rw [hbuf]
    refine ⟨?_, ?_, ?_, hlen, hunanswered, ht⟩
    · rw [hsize, ← h.size]
    · rw [if_neg (Nat.succ_ne_zero n), hsize, ← h.size]
    · rw [inPlace_succ, Bool.and_eq_true, h.live, Bool.not_eq_true', imp_iff_right hgrow]
  · have hbuf : Buffer.grow env n { buf with text := t } = { buf with text := t } := if_neg (mt htest.1 hgrow)
    have hsize : bufSize chunk (n + 1) = bufSize chunk n := if_neg hgrow
    have hn : n ≠ 0 := by
      rintro rfl
      rw [bufSize] at hgrow
      omega
    rw [hbuf]
    refine ⟨?_, ?_, ?_, hlen, hunanswered, ht⟩
    · rw [hsize, ← h.size]
    · rw [if_neg (Nat.succ_ne_zero n), hsize]
      exact h.capacity.trans (if_neg hn)
    · rw [inPlace_succ, ← h.live]
      exact (and_iff_left fun h => absurd h hgrow).symm

/-- What a status says of the first `n` chunks. -/
def Sound (env : Env) (oid : Int) (chunk : Nat → List UInt8) (n : Nat) : Status → Prop
  | .waiting buf => Waits env oid chunk n buf
  | .confirmed => Answered env oid chunk n
  | .overrun => ∃ k < n, ¬ Answered env oid chunk k ∧ ¬ Safe env chunk k

theorem Answered.mono {m : Nat} (h : Answered env oid chunk m) (hle : m ≤ n) : Answered env oid chunk n := by
  obtain ⟨k, hk, hat⟩ := h
  exact ⟨k, Nat.le_trans hk hle, hat⟩

theorem not_answered_succ (h : ¬ Answered env oid chunk n)
    (hn : ¬ ConfirmedAt env oid chunk (n + 1)) : ¬ Answered env oid chunk (n + 1) := by
  rintro ⟨k, hk, hat⟩
  obtain rfl | hlt := Nat.eq_or_lt_of_le hk
  · exact hn hat
  · exact h ⟨k, Nat.le_of_lt_succ hlt, hat⟩

theorem Waits.round (h : Waits env oid chunk n buf)
    (hchunk : chunk n ≠ [] ∧ (chunk n).length ≤ bufSize chunk n - (received chunk n).length) :
    Sound env oid chunk (n + 1) (round env oid n buf (chunk n)) := by
  have hlen : (buf.text ++ chunk n).length = (received chunk (n + 1)).length := by
    rw [received, length_append, length_append, h.length]
  by_cases hsafe : Safe env chunk n
  · simp only [Confirmation.round, if_pos ((h.safe_iff hchunk).2 hsafe)]
    obtain ⟨htext, hnone⟩ | ⟨hmem, hdead, k, hk, hreply⟩ := h.text
    · have hbuf : buf.text ++ chunk n = received chunk (n + 1) := by rw [htext, received]
      rw [hbuf]
      cases hfind : regexec (cString (received chunk (n + 1))) with
      | none =>
        apply h.grow hchunk rfl
        · refine not_answered_succ h.unanswered ?_
          rintro ⟨-, so, eo, hfind', -⟩
          rw [hfind] at hfind'
          cases hfind'
        · refine .inl ⟨rfl, fun k hk => ?_⟩
          obtain rfl | hlt := Nat.eq_or_lt_of_le hk
          · exact hfind
          · exact hnone k (Nat.le_of_lt_succ hlt)
      | some r =>
        obtain ⟨so, eo⟩ := r
        dsimp only
        by_cases hoid : env.scan (((cString (received chunk (n + 1))).take eo).drop so) = oid
        · rw [if_pos hoid]
          exact ⟨n + 1, Nat.le_refl _, fun k hk => hnone k (Nat.le_of_lt_succ hk), so, eo, hfind, hoid⟩
        · rw [if_neg hoid]
          obtain ⟨hzero, hset⟩ := cString_set hfind
          apply h.grow hchunk (length_set ..)
          · refine not_answered_succ h.unanswered ?_
            rintro ⟨-, so', eo', hfind', hoid'⟩
            rw [hfind] at hfind'
            cases hfind'
            exact hoid hoid'
          · refine .inr ⟨hzero, ?_, n + 1, Nat.le_refl _, ?_⟩
            · rw [hset]
              exact regexec_take hfind
            · rw [hfind]
              nofun
    · have hsame : cString (buf.text ++ chunk n) = cString buf.text := cString_append hmem (chunk n)
      rw [hsame, hdead]
      apply h.grow hchunk hlen
      · refine not_answered_succ h.unanswered ?_
        rintro ⟨hbefore, -⟩
        exact hreply (hbefore k (Nat.lt_succ_of_le hk))
      · exact .inr ⟨mem_append_left _ hmem, by rw [hsame]; exact hdead, k, Nat.le_succ_of_le hk, hreply⟩
  · simp only [Confirmation.round, if_neg (mt (h.safe_iff hchunk).1 hsafe)]
    exact ⟨n, Nat.lt_succ_self n, h.unanswered, hsafe⟩

variable (env oid) in
theorem after_sound (h : Chunks chunk n) : Sound env oid chunk n (after env oid chunk n) := by
  induction n with
  | zero =>
    have hempty : ∀ {k : Nat}, k ≤ 0 → regexec (cString (received chunk k)) = none := by
      intro k hk
      cases Nat.le_zero.1 hk
      rfl
    refine ⟨rfl, rfl, iff_of_true rfl (fun k hk => absurd hk (Nat.not_lt_zero k)), rfl, ?_, .inl ⟨rfl, fun k => hempty⟩⟩
    rintro ⟨k, hk, -, so, eo, hfind, -⟩
    rw [hempty hk] at hfind
    cases hfind
  | succ n ih =>
    have hsound := ih fun k hk => h k (Nat.lt_succ_of_lt hk)
    rw [after]
    cases hafter : after env oid chunk n with
    | waiting buf =>
      rw [hafter] at hsound
      exact hsound.round (h n (Nat.lt_succ_self n))
    | confirmed =>
      rw [hafter] at hsound
      exact Answered.mono hsound (Nat.le_succ n)
    | overrun =>
      rw [hafter] at hsound
      obtain ⟨k, hk, hsafe⟩ := hsound
      exact ⟨k, Nat.lt_succ_of_lt hk, hsafe⟩

/-! What the status after a run says of it. -/

theorem waits_of_waiting (h : Chunks chunk n) (hafter : after env oid chunk n = .waiting buf) :
    Waits env oid chunk n buf := by
  have hsound := after_sound env oid h
  rwa [hafter] at hsound

theorem answered_of_confirmed (h : Chunks chunk n) (hafter : after env oid chunk n = .confirmed) :
    Answered env oid chunk n := by
  have hsound := after_sound env oid h
  rwa [hafter] at hsound

theorem unsafe_of_overrun (h : Chunks chunk n) (hafter : after env oid chunk n = .overrun) :
    ∃ k < n, ¬ Answered env oid chunk k ∧ ¬ Safe env chunk k := by
  have hsound := after_sound env oid h
  rwa [hafter] at hsound

theorem Waits.safe_of_round (h : Waits env oid chunk n buf)
    (hchunk : chunk n ≠ [] ∧ (chunk n).length ≤ bufSize chunk n - (received chunk n).length)
    (hround : Confirmation.round env oid n buf (chunk n) ≠ .overrun) : Safe env chunk n := by
  by_contra hsafe
  apply hround
  simp only [Confirmation.round, if_neg (mt (h.safe_iff hchunk).1 hsafe)]

end

/-- All chunks that can be received go to the memory of the buffer, and the reply that is waited for is noticed
at once, if and only if the buffer stays in place and keeps space for the terminator while chunks are received,
and the reply is the first one. -/
theorem confirmation_works_iff {n : Nat} (h : Chunks chunk n) : Works env oid chunk n ↔ Condition env oid chunk n := by
  have hchunks : ∀ k ≤ n, Chunks chunk k := fun k hk m hm => h m (Nat.lt_of_lt_of_le hm hk)
  constructor
  · intro hworks k hk
    constructor
    · intro hne hunanswered
      cases hafter : after env oid chunk k with
      | waiting buf =>
        refine (waits_of_waiting (hchunks k (Nat.le_of_lt hk)) hafter).safe_of_round (h k hk) ?_ hne
        have hnext := (hworks (k + 1) hk).1
        rwa [after, hafter] at hnext
      | confirmed => exact absurd (answered_of_confirmed (hchunks k (Nat.le_of_lt hk)) hafter) hunanswered
      | overrun => exact absurd hafter (hworks k (Nat.le_of_lt hk)).1
    · intro hcarries
      exact answered_of_confirmed (hchunks (k + 1) hk) ((hworks (k + 1) hk).2 hcarries)
  · intro hcond k hk
    have hnever : after env oid chunk k ≠ .overrun := by
      intro hafter
      obtain ⟨m, hm, hunanswered, hsafe⟩ := unsafe_of_overrun (hchunks k hk) hafter
      exact hsafe fun hne => (hcond m (Nat.lt_of_lt_of_le hm hk)).1 hne hunanswered
    constructor
    · exact hnever
    · intro hcarries
      have hanswered : Answered env oid chunk k := by
        cases k with
        | zero =>
          obtain ⟨d, ⟨p, a, b, t, hsplit, -, hd, -⟩, -⟩ := hcarries
          have hnil := congrArg List.length hsplit
          have hpos := length_pos_of_ne_nil (mem_group hd).1
          simp only [received, length_nil, length_append] at hnil
          omega
        | succ m => exact (hcond m hk).2 hcarries
      cases hafter : after env oid chunk k with
      | waiting buf => exact absurd hanswered (waits_of_waiting (hchunks k hk) hafter).unanswered
      | confirmed => rfl
      | overrun => exact absurd hafter hnever

/-! ## Two conversations -/

def inPlace : Env := ⟨fun _ => false, fun d => value d, fun _ _ _ _ => rfl⟩

def moving : Env := ⟨fun _ => true, fun d => value d, fun _ _ _ _ => rfl⟩

def start : List UInt8 := ascii "<observer oid=\""

def rest : List UInt8 := ascii "\"/>"

theorem start_mem : start ∈ pattern.before.matches' :=
  Language.append_mem_mul (Language.append_mem_mul (Language.append_mem_mul (Language.append_mem_mul
    (mem_optional.2 (.inl rfl)) (mem_lit (ascii "<observer")))
    (mem_oneOrMore (mem_oneOf.2 ⟨32, by decide, rfl⟩))) (mem_optional.2 (.inl rfl))) (mem_lit (ascii "oid=\""))

theorem rest_mem : rest ∈ pattern.after.matches' :=
  Language.append_mem_mul (mem_lit (ascii "\"")) (Language.append_mem_mul (Language.append_mem_mul
    (mem_optional.2 (.inl rfl)) (Language.nil_mem_kstar _)) (.inl (mem_lit (ascii "/>"))))

theorem digit_mem {c : UInt8} (h : c ∈ ascii "0123456789") : [c] ∈ pattern.group.matches' :=
  mem_oneOrMore (mem_oneOf.2 ⟨c, h, rfl⟩)

def five : List UInt8 := start ++ ([53] ++ (rest ++ []))

def sixFive : List UInt8 := start ++ ([54] ++ (rest ++ five))

theorem confirmation_works_iff_five : Chunks (fun _ => five) 1 ∧ Works inPlace 5 (fun _ => five) 1 := by
  have hchunks : Chunks (fun _ => five) 1 := by
    intro k hk
    cases Nat.lt_one_iff.1 hk
    exact ⟨by decide, by decide⟩
  refine ⟨hchunks, (confirmation_works_iff hchunks).2 ?_⟩
  intro k hk
  cases Nat.lt_one_iff.1 hk
  refine ⟨fun hne => absurd rfl hne, fun _ => ⟨1, Nat.le_refl 1, ?_, start.length, (start ++ [53]).length, ?_, by decide⟩⟩
  · intro k hk
    cases Nat.lt_one_iff.1 hk
    rfl
  · have htext : cString (received (fun _ => five) 1) = five := by decide
    rw [htext]
    exact regexec_eq start_mem (digit_mem (by decide)) rest_mem

/-- The reply to another observer hides the one that is waited for, and the second chunk goes to a block that has
been freed. -/
theorem reply_hidden :
    (Chunks (fun _ => sixFive) 1 ∧ ¬ Works inPlace 5 (fun _ => sixFive) 1) ∧
      Chunks (fun _ => [120]) 2 ∧ ¬ Works moving 5 (fun _ => [120]) 2 := by
  have hsix : Chunks (fun _ => sixFive) 1 := by
    intro k hk
    cases Nat.lt_one_iff.1 hk
    exact ⟨by decide, by decide⟩
  have htwo : Chunks (fun _ => [120]) 2 := by
    intro k hk
    obtain rfl | rfl : k = 0 ∨ k = 1 := by omega
    · exact ⟨by decide, by decide⟩
    · exact ⟨by decide, by decide⟩
  refine ⟨⟨hsix, fun hworks => ?_⟩, htwo, fun hworks => ?_⟩
  · have hcarries : Carries 5 (received (fun _ => sixFive) 1) :=
      ⟨[53], ⟨start ++ ([54] ++ rest), start, rest, [], by decide, start_mem, digit_mem (by decide), rest_mem⟩,
        by decide⟩
    obtain ⟨k, hk, -, so, eo, hfind, hoid⟩ :=
      answered_of_confirmed hsix ((hworks 1 (Nat.le_refl 1)).2 hcarries)
    obtain rfl | rfl : k = 0 ∨ k = 1 := by omega
    · cases hfind
    · have htext : cString (received (fun _ => sixFive) 1) = sixFive := by decide
      have hfirst : regexec sixFive = some (start.length, (start ++ [54]).length) :=
        regexec_eq start_mem (digit_mem (c := 54) (by decide)) rest_mem (t := five)
      rw [htext] at hfind hoid
      rw [hfirst, Option.some.injEq, Prod.mk.injEq] at hfind
      rw [← hfind.1, ← hfind.2] at hoid
      exact absurd hoid (by decide)
  · have hone : Chunks (fun _ => [120]) 1 := fun k hk => htwo k (Nat.lt_succ_of_lt hk)
    cases hafter : after moving 5 (fun _ => [120]) 1 with
    | waiting buf =>
      have hnext := (hworks 2 (Nat.le_refl 2)).1
      rw [after, hafter] at hnext
      have hplace := ((waits_of_waiting hone hafter).safe_of_round (htwo 1 (by decide)) hnext Nat.one_ne_zero).1
      cases hplace 0 Nat.zero_lt_one (by decide)
    | confirmed =>
      obtain ⟨k, hk, -, so, eo, hfind, -⟩ := answered_of_confirmed hone hafter
      obtain rfl | rfl : k = 0 ∨ k = 1 := by omega
      · cases hfind
      · rw [regexec_eq_none (by decide)] at hfind
        cases hfind
    | overrun => exact absurd hafter (hworks 1 (by decide)).1

end SNet.Confirmation
