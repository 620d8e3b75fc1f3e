import SNetRts.Lib.Circular
import SNetRts.Svpgw.Buffer
import Mathlib.Data.List.Nodup

/-!
# Buffers are queues

A dynamic buffer has the buckets of two lists, `used` and `empty`. The element number `i` of the buffer is at
the place `tail.idx + i`, counted through the used buckets; a fixed buffer counts round its only bucket.
-/

namespace SNet.Svpgw.Buffer

open Function (update update_of_ne update_self)

open Lib List

variable {V : Type}

/-! ## Places -/

theorem place {a r B : Nat} (hr : r < B) : (a * B + r) / B = a ∧ (a * B + r) % B = r := by
  rw [Nat.div_mod_unique (Nat.zero_lt_of_lt hr)]
  exact ⟨by rw [Nat.mul_comm, Nat.add_comm], hr⟩

theorem mod_ne {p q B : Nat} (hne : p ≠ q) (hdiv : p / B = q / B) : p % B ≠ q % B := by
  intro hmod
  apply hne
  rw [← Nat.div_add_mod p B, ← Nat.div_add_mod q B, hdiv, hmod]

theorem place_succ {p B : Nat} (hpos : 0 < B) :
    (p % B + 1 = B → (p + 1) / B = p / B + 1 ∧ (p + 1) % B = 0) ∧
      (p % B + 1 ≠ B → (p + 1) / B = p / B ∧ (p + 1) % B = p % B + 1) := by
  have hp := Nat.div_add_mod p B
  have hlt := Nat.mod_lt p hpos
  rw [Nat.mul_comm] at hp
  constructor
  · intro hlast
    have heq : p + 1 = (p / B + 1) * B + 0 := by
      rw [Nat.succ_mul]
      omega
    rw [heq]
    exact place hpos
  · intro hne
    have heq : p + 1 = p / B * B + (p % B + 1) := by omega
    rw [heq]
    exact place (by omega)

/-! ## Dynamic buffers -/

/-- The elements of the list are in the used buckets. -/
structure Dynamic (B : Nat) (buf : Buffer V) (used empty : List Nat) (xs : List (Option V)) : Prop where
  dynamic : buf.dynamic = true
  bucketSz : buf.bucketSz = B
  sz : buf.sz = xs.length
  fits : xs.length < 2 ^ 32
  nodup : (used ++ empty).Nodup
  alive : ∀ b, buf.buckets b ≠ none ↔ b ∈ used ++ empty
  below : ∀ b ∈ used ++ empty, b < buf.fresh
  usedSeg : Seg buf.link buf.tail.bucket used none
  emptySeg : Seg buf.link buf.emptyBucketsTail empty none
  usedHead : buf.usedBucketsHead = used.getLast?
  emptyHead : buf.emptyBucketsHead = empty.getLast?
  /-- Where the next element goes. -/
  head : (buf.head = ⟨0, none⟩ ∧ buf.tail.idx + xs.length = used.length * B) ∨
    ∃ pre b, used = pre ++ [b] ∧ buf.head.bucket = some b ∧ buf.head.idx < B ∧
      buf.tail.idx + xs.length = pre.length * B + buf.head.idx
  tail : buf.tail.idx < B
  slot : ∀ i x, xs[i]? = some x → ∃ b bucket, used[(buf.tail.idx + i) / B]? = some b ∧
    buf.buckets b = some bucket ∧ bucket.store ((buf.tail.idx + i) % B) = x

section

variable {buf : Buffer V} {B b : Nat} {used empty : List Nat} {xs : List (Option V)} {next : Option Nat}

theorem Dynamic.chained (h : Dynamic B buf used empty xs) : buf.Chained := by
  refine ⟨used, empty, h.nodup, h.alive, ?_, h.emptySeg, h.usedHead, h.emptyHead, ?_⟩
  · rw [h.dynamic]
    exact h.usedSeg
  · rcases h.head with ⟨hhead, -⟩ | ⟨pre, b, rfl, hhead, -⟩
    · exact .inl (congrArg BufIterator.bucket hhead)
    · exact .inr (hhead.trans getLast?_concat.symm)

theorem Dynamic.exists_bucket (h : Dynamic B buf used empty xs) (hb : b ∈ used ++ empty) :
    ∃ bucket, buf.buckets b = some bucket := Option.ne_none_iff_exists'.1 ((h.alive b).2 hb)

theorem setNext_eq {buf : Buffer V} {b : Nat} {bucket : BufBucket V} (hb : buf.buckets b = some bucket)
    (next : Option Nat) :
    buf.setNext b next =
      some { buf with buckets := update buf.buckets b (some { bucket with next }) } := by
  rw [setNext, hb]
  rfl

theorem next_update_of_ne {buckets : Nat → Option (BufBucket V)} {o : Option (BufBucket V)} {b c : Nat} (hc : c ≠ b) :
    (update buckets b o c).map BufBucket.next = (buckets c).map BufBucket.next :=
  congrArg (Option.map BufBucket.next) (update_of_ne hc o buckets)

theorem next_update_self {buckets : Nat → Option (BufBucket V)} {o : Option (BufBucket V)} {b : Nat} :
    (update buckets b o b).map BufBucket.next = o.map BufBucket.next :=
  congrArg (Option.map BufBucket.next) (update_self b o buckets)

theorem store_update {buckets : Nat → Option (BufBucket V)} {b : Nat} {bucket : BufBucket V}
    (hb : buckets b = some bucket) (next : Option Nat) (c : Nat) :
    (update buckets b (some { bucket with next }) c).map BufBucket.store =
      (buckets c).map BufBucket.store := by
  by_cases hc : c = b
  · subst hc
    rw [update_self, hb]
    rfl
  · rw [update_of_ne hc]

/-- The memory when a bucket has been put behind the last one of a chain. -/
structure Appended (buckets buckets' : Nat → Option (BufBucket V)) (chain : List Nat) (b : Nat) : Prop where
  store : ∀ c, (buckets' c).map BufBucket.store = (buckets c).map BufBucket.store
  other : ∀ c, c ≠ b → chain.getLast? ≠ some c → buckets' c = buckets c
  new : (buckets' b).map BufBucket.next = some none
  last : ∀ c, chain.getLast? = some c → (buckets' c).map BufBucket.next = some (some b)

section

variable {buckets buckets' : Nat → Option (BufBucket V)} {chain : List Nat} {first : Option Nat}

theorem Appended.alive (h : Appended buckets buckets' chain b) (c : Nat) : buckets' c ≠ none ↔ buckets c ≠ none := by
  have hstore := h.store c
  rw [Ne, Ne, ← Option.map_eq_none_iff (f := BufBucket.store), hstore, Option.map_eq_none_iff]

theorem Appended.seg (h : Appended buckets buckets' chain b)
    (hseg : Seg (fun c => (buckets c).map BufBucket.next) first chain none) (hnodup : chain.Nodup) (hnot : b ∉ chain) :
    Seg (fun c => (buckets' c).map BufBucket.next) (first.or (some b)) (chain ++ [b]) none := by
  rcases eq_nil_or_concat chain with rfl | ⟨pre, l, rfl⟩
  · rw [Seg.nil_iff] at hseg
    subst hseg
    exact ⟨rfl, none, h.new, rfl⟩
  · rw [concat_eq_append] at *
    have hl := h.last l getLast?_concat
    have hpre : l ∉ pre := by
      rw [nodup_append_comm] at hnodup
      exact (nodup_cons.1 hnodup).1
    have hhead : first.or (some b) = first := by
      rw [hseg.head_eq]
      cases pre <;> rfl
    rw [hhead]
    refine Seg.append_iff.2 ⟨some b, hseg.set_last hpre (fun c hc hne => ?_) hl, rfl, none, h.new, rfl⟩
    have hcb : c ≠ b := fun heq => hnot (heq ▸ mem_append_left _ hc)
    show (buckets' c).map BufBucket.next = (buckets c).map BufBucket.next
    rw [h.other c hcb (by rw [getLast?_concat]; simpa using hne.symm)]

theorem Appended.seg_other {link : List Nat} {p q : Option Nat} (h : Appended buckets buckets' chain b)
    (hseg : Seg (fun c => (buckets c).map BufBucket.next) p link q) (hdisjoint : ∀ c ∈ link, c ∉ chain)
    (hnot : b ∉ link) : Seg (fun c => (buckets' c).map BufBucket.next) p link q := by
  refine hseg.congr fun c hc => ?_
  have hcb : c ≠ b := fun heq => hnot (heq ▸ hc)
  have hlast : chain.getLast? ≠ some c := fun heq => hdisjoint c hc (mem_of_getLast? heq)
  show (buckets' c).map BufBucket.next = (buckets c).map BufBucket.next
  rw [h.other c hcb hlast]

theorem Appended.bucket (h : Appended buckets buckets' chain b) {c : Nat} {bucket : BufBucket V}
    (hc : buckets c = some bucket) : ∃ bucket', buckets' c = some bucket' ∧ bucket'.store = bucket.store := by
  have hstore := h.store c
  rw [hc, Option.map_some, Option.map_eq_some_iff] at hstore
  exact hstore

end

theorem appended_update (buf : Buffer V) (chain : List Nat) {bucket : BufBucket V} (hb : buf.buckets b = some bucket) (hnot : b ∉ chain)
    (halive : ∀ c ∈ chain, buf.buckets c ≠ none) :
    (∃ buckets', ((buf.setNext b none).bind fun linked => linked.setLast chain.getLast? b) =
      some { buf with buckets := buckets' } ∧ Appended buf.buckets buckets' chain b) ∧
    ∃ buckets', ((buf.setLast chain.getLast? b).bind fun linked => linked.setNext b none) =
      some { buf with buckets := buckets' } ∧ Appended buf.buckets buckets' chain b := by
  cases hlast : chain.getLast? with
  | none =>
    rw [setNext_eq hb]
    have happended : Appended buf.buckets (update buf.buckets b (some { bucket with next := none })) chain b :=
      ⟨store_update hb none, fun c hc _ => update_of_ne hc _ _, next_update_self,
        fun c hc => by rw [hlast] at hc; cases hc⟩
    exact ⟨⟨_, rfl, happended⟩, ⟨_, setNext_eq hb none, happended⟩⟩
  | some l =>
    have hmem := mem_of_getLast? hlast
    have hne : l ≠ b := fun heq => hnot (heq ▸ hmem)
    obtain ⟨lbucket, hl⟩ := Option.ne_none_iff_exists'.1 (halive l hmem)
    rw [setNext_eq hb, setLast, setNext_eq hl]
    constructor
    · have hl' : update buf.buckets b (some { bucket with next := none }) l = some lbucket := by
        rwa [update_of_ne hne]
      refine ⟨_, setNext_eq hl' (some b), ?_, ?_, ?_, ?_⟩
      · intro c
        rw [store_update hl', store_update hb]
      · intro c hc hcl
        have hcl' : c ≠ l := by
          rintro rfl
          exact hcl hlast
        dsimp only
        rw [update_of_ne hcl', update_of_ne hc]
      · rw [next_update_of_ne hne.symm, next_update_self]
        rfl
      · intro c hc
        cases hlast.symm.trans hc
        rw [next_update_self]
        rfl
    · have hb' : update buf.buckets l (some { lbucket with next := some b }) b = some bucket := by
        rwa [update_of_ne hne.symm]
      refine ⟨_, setNext_eq hb' none, ?_, ?_, ?_, ?_⟩
      · intro c
        rw [store_update hb', store_update hl]
      · intro c hc hcl
        have hcl' : c ≠ l := by
          rintro rfl
          exact hcl hlast
        dsimp only
        rw [update_of_ne hc, update_of_ne hcl']
      · rw [next_update_self]
        rfl
      · intro c hc
        cases hlast.symm.trans hc
        rw [next_update_of_ne hne, next_update_self]
        rfl

theorem Dynamic.front {x : Option V} (h : Dynamic B buf (b :: used) empty (x :: xs)) (hlast : buf.tail.idx + 1 = B) :
    used.getLast? = (if buf.usedBucketsHead = some b then none else buf.usedBucketsHead) ∧
    ((buf.head = ⟨0, none⟩ ∧ 0 + xs.length = used.length * B) ∨ ∃ pre c, used = pre ++ [c] ∧
      buf.head.bucket = some c ∧ buf.head.idx < B ∧ 0 + xs.length = pre.length * B + buf.head.idx) ∧
    ∀ i y, xs[i]? = some y → ∃ c bucket, used[(0 + i) / B]? = some c ∧ buf.buckets c = some bucket ∧
      bucket.store ((0 + i) % B) = y := by
  have hpos : 0 < B := by omega
  have hnot : b ∉ used := fun hin => (nodup_cons.1 h.nodup).1 (mem_append_left _ hin)
  refine ⟨?_, ?_, ?_⟩
  · rw [h.usedHead]
    rcases eq_nil_or_concat used with rfl | ⟨pre, c, rfl⟩
    · rw [getLast?_singleton, if_pos rfl]
      rfl
    · rw [concat_eq_append] at hnot ⊢
      have hne : c ≠ b := by
        rintro rfl
        exact hnot (mem_append_right _ (mem_singleton_self _))
      rw [← cons_append, getLast?_concat, getLast?_concat, if_neg (by simpa using hne)]
  · rcases h.head with ⟨hhead, hcount⟩ | ⟨pre, c, heq, hhead, hidx, hcount⟩
    · refine .inl ⟨hhead, ?_⟩
      rw [length_cons, length_cons, Nat.succ_mul] at hcount
      omega
    · cases pre with
      | nil =>
        -- the bucket would be the one that is being filled
        rw [length_cons, length_nil] at hcount
        omega
      | cons d pre =>
        rw [cons_append, List.cons.injEq] at heq
        refine .inr ⟨pre, c, heq.2, hhead, hidx, ?_⟩
        rw [length_cons, length_cons, Nat.succ_mul] at hcount
        omega
  · intro i y hi
    obtain ⟨c, bucket, hc, hbucket, hstore⟩ := h.slot (i + 1) y hi
    have hplace : buf.tail.idx + (i + 1) = i + B := by omega
    rw [hplace, Nat.add_div_right _ hpos, getElem?_cons_succ] at hc
    rw [hplace, Nat.add_mod_right] at hstore
    rw [Nat.zero_add]
    exact ⟨c, bucket, hc, hbucket, hstore⟩

theorem Dynamic.release {x : Option V} (h : Dynamic B buf (b :: used) empty (x :: xs)) (hlast : buf.tail.idx + 1 = B) :
    ∃ buf' empty', release { buf with sz := buf.sz - 1, tail := ⟨0, used.head?⟩ } b = some buf' ∧
      Dynamic B buf' used empty' xs := by
  obtain ⟨husedHead, hhead, hslot⟩ := h.front hlast
  obtain ⟨hnot, hnodup⟩ := nodup_cons.1 h.nodup
  have hpos : 0 < B := by omega
  have hsz : buf.sz - 1 = xs.length := by rw [h.sz, length_cons, Nat.add_sub_cancel]
  have hfits : xs.length < 2 ^ 32 := Nat.lt_of_succ_lt h.fits
  obtain ⟨-, next, hnext, hseg⟩ := h.usedSeg
  have hrest : Seg buf.link used.head? used none := by
    have hhead := hseg.head_eq
    rw [Option.or_none] at hhead
    rwa [← hhead]
  have hne : ∀ c ∈ used ++ empty, c ≠ b := fun c hc heq => hnot (heq ▸ hc)
  obtain ⟨bucket, hbucket⟩ := h.exists_bucket mem_cons_self
  rw [Buffer.release]
  dsimp only
  by_cases hdestroy : b ≠ 0 ∧ excess { buf with sz := buf.sz - 1, tail := ⟨0, used.head?⟩ }
  · rw [if_pos hdestroy]
    refine ⟨_, empty, rfl, ?_⟩
    exact
      { dynamic := h.dynamic
        bucketSz := h.bucketSz
        sz := hsz
        fits := hfits
        nodup := hnodup
        alive := fun c => by
          by_cases hc : c = b
          · subst hc
            show update buf.buckets c none c ≠ none ↔ _
            rw [update_self]
            exact ⟨fun hnone => absurd rfl hnone, fun hin => absurd hin hnot⟩
          · show update buf.buckets b none c ≠ none ↔ _
            rw [update_of_ne hc, h.alive, cons_append, mem_cons]
            exact ⟨fun hin => hin.resolve_left hc, .inr⟩
        below := fun c hc => h.below c (mem_cons_of_mem b hc)
        usedSeg := hrest.congr fun c hc => next_update_of_ne (hne c (mem_append_left _ hc))
        emptySeg := h.emptySeg.congr fun c hc => next_update_of_ne (hne c (mem_append_right _ hc))
        usedHead := husedHead.symm
        emptyHead := h.emptyHead
        head := hhead
        tail := hpos
        slot := fun i y hi => by
          obtain ⟨c, bucket, hc, hbucket, hstore⟩ := hslot i y hi
          refine ⟨c, bucket, hc, ?_, hstore⟩
          show update buf.buckets b none c = some bucket
          rwa [update_of_ne (hne c (mem_append_left _ (mem_of_getElem? hc)))] }
  · rw [if_neg hdestroy]
    have hempty : b ∉ empty := fun hin => hnot (mem_append_right _ hin)
    have halive : ∀ c ∈ empty, buf.buckets c ≠ none := fun c hc =>
      (h.alive c).2 (mem_cons_of_mem b (mem_append_right _ hc))
    obtain ⟨buckets, heq, happended⟩ :=
      (appended_update { buf with sz := buf.sz - 1, tail := ⟨0, used.head?⟩ } empty hbucket hempty halive).1
    rw [← h.emptyHead] at heq
    refine ⟨{ buf with
      sz := buf.sz - 1
      tail := ⟨0, used.head?⟩
      buckets := buckets
      emptyBucketsHead := some b
      emptyBucketsTail := buf.emptyBucketsTail.or (some b)
      usedBucketsHead := if buf.usedBucketsHead = some b then none else buf.usedBucketsHead }, empty ++ [b], ?_, ?_⟩
    · have hbind := congrArg (Option.bind · fun linked => some { linked with
        emptyBucketsHead := some b
        emptyBucketsTail := buf.emptyBucketsTail.or (some b)
        usedBucketsHead := if buf.usedBucketsHead = some b then none else buf.usedBucketsHead }) heq
      rw [Option.bind_assoc] at hbind
      exact hbind
    · exact
        { dynamic := h.dynamic
          bucketSz := h.bucketSz
          sz := hsz
          fits := hfits
          nodup := by
            rw [← append_assoc, nodup_append_comm]
            exact h.nodup
          alive := fun c => by
            rw [happended.alive c]
            show buf.buckets c ≠ none ↔ _
            rw [h.alive, ← append_assoc, cons_append, mem_cons, mem_append (t := [b]),
              mem_singleton, or_comm]
          below := fun c hc => h.below c (by
            rw [← append_assoc, mem_append (t := [b]), mem_singleton, or_comm] at hc
            exact mem_cons.2 hc)
          usedSeg := happended.seg_other hrest
            (fun c hc hce => (nodup_append.1 hnodup).2.2 c hc c hce rfl)
            (fun hin => hnot (mem_append_left _ hin))
          emptySeg := happended.seg h.emptySeg (nodup_append.1 hnodup).2.1 hempty
          usedHead := husedHead.symm
          emptyHead := getLast?_concat.symm
          head := hhead
          tail := hpos
          slot := fun i y hi => by
            obtain ⟨c, bucket, hc, hbucket, hstore⟩ := hslot i y hi
            obtain ⟨bucket', hbucket', hsame⟩ := happended.bucket hbucket
            exact ⟨c, bucket', hc, hbucket', by rw [hsame, hstore]⟩ }

theorem seg_tail {link : Nat → Option (Option Nat)} {p : Option Nat} {chain : List Nat}
    (h : Seg link p (b :: chain) none) : link b = some chain.head? ∧ Seg link chain.head? chain none := by
  obtain ⟨-, next, hnext, hseg⟩ := h
  have hhead := hseg.head_eq
  rw [Option.or_none] at hhead
  rw [← hhead]
  exact ⟨hnext, hseg⟩

theorem load_eq {bucket : BufBucket V} {idx : Nat} (hidx : idx < buf.bucketSz) (hb : buf.buckets b = some bucket) :
    buf.load b idx = some (bucket.store idx) := by
  rw [load, if_pos hidx, hb]
  rfl

theorem Dynamic.pop {x : Option V} (h : Dynamic B buf used empty (x :: xs)) :
    ∃ buf' used' empty', buf.pop = some (x, buf') ∧ Dynamic B buf' used' empty' xs := by
  have hsz : buf.sz ≠ 0 := by
    rw [h.sz]
    exact Nat.succ_ne_zero _
  obtain ⟨b, bucket, hb, hbucket, hstore⟩ := h.slot 0 x rfl
  rw [Nat.add_zero, Nat.div_eq_of_lt h.tail] at hb
  rw [Nat.add_zero, Nat.mod_eq_of_lt h.tail] at hstore
  cases used with
  | nil => cases hb
  | cons c used =>
    cases hb
    have htail : buf.tail.bucket = some b := h.usedSeg.1
    obtain ⟨hlink, -⟩ := seg_tail h.usedSeg
    have hload : buf.load b buf.tail.idx = some x := by
      rw [load_eq (by rw [h.bucketSz]; exact h.tail) hbucket, hstore]
    by_cases hlast : buf.tail.idx + 1 = B
    · obtain ⟨buf', empty', hrelease, hdynamic⟩ := h.release hlast
      refine ⟨buf', used, empty', ?_, hdynamic⟩
      have hpop : buf.pop = (Buffer.release { buf with sz := buf.sz - 1, tail := ⟨0, used.head?⟩ } b).map (x, ·) := by
        simp [Buffer.pop, hsz, htail, hload, h.bucketSz, hlast, hlink, h.dynamic]
      rw [hpop, hrelease]
      rfl
    · have htail' : buf.tail.idx + 1 < B := by
        have := h.tail
        omega
      refine ⟨{ buf with sz := buf.sz - 1, tail := ⟨buf.tail.idx + 1, some b⟩ }, b :: used, empty, ?_, ?_⟩
      · simp [Buffer.pop, hsz, htail, hload, h.bucketSz, hlast]
      · exact
          { dynamic := h.dynamic
            bucketSz := h.bucketSz
            sz := by
              show buf.sz - 1 = xs.length
              rw [h.sz, length_cons, Nat.add_sub_cancel]
            fits := Nat.lt_of_succ_lt h.fits
            nodup := h.nodup
            alive := h.alive
            below := h.below
            usedSeg := by
              have hseg := h.usedSeg
              rw [htail] at hseg
              exact hseg
            emptySeg := h.emptySeg
            usedHead := h.usedHead
            emptyHead := h.emptyHead
            head := by
              have hlen : buf.tail.idx + 1 + xs.length = buf.tail.idx + (x :: xs).length := by
                rw [length_cons]
                omega
              rcases h.head with ⟨hhead, hcount⟩ | ⟨pre, c, heq, hhead, hidx, hcount⟩
              · exact .inl ⟨hhead, hlen.trans hcount⟩
              · exact .inr ⟨pre, c, heq, hhead, hidx, hlen.trans hcount⟩
            tail := htail'
            slot := fun i y hi => by
              have hplace : buf.tail.idx + 1 + i = buf.tail.idx + (i + 1) := by omega
              dsimp only
              rw [hplace]
              exact h.slot (i + 1) y hi }

theorem Dynamic.newBucket (h : Dynamic B buf used empty xs) :
    ∃ (buf₀ : Buffer V) (e : Nat) (rest : List Nat), Dynamic B buf₀ used (e :: rest) xs ∧
      buf₀.head = buf.head ∧ buf₀.tail = buf.tail ∧
      buf.newBucket = some (e, { buf₀ with emptyBucketsTail := rest.head?, emptyBucketsHead := rest.getLast? }) := by
  cases empty with
  | cons e rest =>
    obtain ⟨hlink, -⟩ := seg_tail h.emptySeg
    have htail : buf.emptyBucketsTail = some e := h.emptySeg.1
    have hhead : (if rest.head? = none then none else buf.emptyBucketsHead) = rest.getLast? := by
      rw [h.emptyHead]
      cases rest with
      | nil => rfl
      | cons f rest => rfl
    refine ⟨buf, e, rest, h, rfl, rfl, ?_⟩
    rw [Buffer.newBucket, htail]
    dsimp only
    rw [hlink, Option.map_some, hhead]
  | nil =>
    have htail : buf.emptyBucketsTail = none := h.emptySeg
    have hnot : buf.fresh ∉ used := fun hin => Nat.lt_irrefl _ (h.below _ (mem_append_left _ hin))
    have hne : ∀ c ∈ used, c ≠ buf.fresh := fun c hc heq => hnot (heq ▸ hc)
    have hnodup := h.nodup
    rw [append_nil] at hnodup
    refine ⟨{ buf.createBucket.2 with
      bucketsCnt := uint (buf.bucketsCnt + 1)
      emptyBucketsTail := some buf.fresh
      emptyBucketsHead := some buf.fresh }, buf.fresh, [], ?_, rfl, rfl, ?_⟩
    · exact
        { dynamic := h.dynamic
          bucketSz := h.bucketSz
          sz := h.sz
          fits := h.fits
          nodup := by
            rw [nodup_append_comm]
            exact nodup_cons.2 ⟨hnot, hnodup⟩
          alive := fun c => by
            by_cases hc : c = buf.fresh
            · subst hc
              show update buf.buckets buf.fresh _ buf.fresh ≠ none ↔ _
              rw [update_self]
              exact ⟨fun _ => mem_append_right _ (mem_singleton_self _), fun _ => nofun⟩
            · show update buf.buckets buf.fresh _ c ≠ none ↔ _
              rw [update_of_ne hc, h.alive, append_nil, mem_append, mem_singleton]
              exact ⟨.inl, fun hin => hin.resolve_right hc⟩
          below := fun c hc => by
            rcases mem_append.1 hc with hc | hc
            · exact Nat.lt_succ_of_lt (h.below c (mem_append_left _ hc))
            · rw [mem_singleton.1 hc]
              exact Nat.lt_succ_self _
          usedSeg := h.usedSeg.congr fun c hc => next_update_of_ne (hne c hc)
          emptySeg := ⟨rfl, none, next_update_self, rfl⟩
          usedHead := h.usedHead
          emptyHead := rfl
          head := h.head
          tail := h.tail
          slot := fun i x hi => by
            obtain ⟨c, bucket, hc, hbucket, hstore⟩ := h.slot i x hi
            refine ⟨c, bucket, hc, ?_, hstore⟩
            show update buf.buckets buf.fresh _ c = some bucket
            rwa [update_of_ne (hne c (mem_of_getElem? hc))] }
    · have hhead : buf.emptyBucketsHead = none := h.emptyHead
      simp [Buffer.newBucket, htail, hhead, createBucket]

theorem Dynamic.addBucket (h : Dynamic B buf used empty xs) :
    ∃ buf' used' empty', buf.addBucket = some buf' ∧ Dynamic B buf' used' empty' xs ∧ buf'.head.bucket ≠ none := by
  rcases h.head with ⟨hhead, hcount⟩ | ⟨pre, b, heq, hhead, hidx, hcount⟩
  · obtain ⟨buf₀, e, rest, h₀, hhead₀, htail₀, hnew⟩ := h.newBucket
    have hnodup := h₀.nodup
    have hsplit : used ++ e :: rest = (used ++ [e]) ++ rest := by rw [append_assoc, singleton_append]
    have hused : e ∉ used := fun hin => (nodup_append.1 hnodup).2.2 e hin e mem_cons_self rfl
    have hrest : e ∉ rest := (nodup_cons.1 (nodup_append.1 hnodup).2.1).1
    obtain ⟨bucket, hbucket⟩ := h₀.exists_bucket (mem_append_right used mem_cons_self)
    obtain ⟨-, hempty⟩ := seg_tail h₀.emptySeg
    obtain ⟨buckets, heq, happended⟩ := (appended_update
      { buf₀ with emptyBucketsTail := rest.head?, emptyBucketsHead := rest.getLast? } used hbucket hused fun c hc => (h₀.alive c).2 (mem_append_left _ hc)).2
    rw [← h₀.usedHead] at heq
    refine ⟨{ buf₀ with
      emptyBucketsTail := rest.head?
      emptyBucketsHead := rest.getLast?
      buckets := buckets
      usedBucketsHead := some e
      head := { buf₀.head with bucket := some e }
      tail := { buf₀.tail with bucket := buf₀.tail.bucket.or (some e) } }, used ++ [e], rest, ?_, ?_, nofun⟩
    · have hadd : buf.addBucket = (buf.newBucket.bind fun p => (p.2.setLast p.2.usedBucketsHead p.1).bind fun buf =>
          (buf.setNext p.1 none).bind fun buf => some { buf with
            usedBucketsHead := some p.1
            head := { buf.head with bucket := some p.1 }
            tail := { buf.tail with bucket := buf.tail.bucket.or (some p.1) } }) := by
        rw [Buffer.addBucket, hhead, h.dynamic]
        rfl
      rw [hadd, hnew, Option.bind_some]
      dsimp only
      rw [← Option.bind_assoc, heq]
      rfl
    · have halive : ∀ c, buckets c ≠ none ↔ c ∈ used ++ [e] ++ rest := fun c => by
        rw [happended.alive c, ← hsplit]
        exact h₀.alive c
      exact
        { dynamic := h₀.dynamic
          bucketSz := h₀.bucketSz
          sz := h₀.sz
          fits := h₀.fits
          nodup := hsplit ▸ hnodup
          alive := halive
          below := fun c hc => h₀.below c (hsplit ▸ hc)
          usedSeg := happended.seg h₀.usedSeg (nodup_append.1 hnodup).1 hused
          emptySeg := happended.seg_other hempty
            (fun c hc hcu => (nodup_append.1 hnodup).2.2 c hcu c (mem_cons_of_mem e hc) rfl) hrest
          usedHead := getLast?_concat.symm
          emptyHead := rfl
          head := by
            refine .inr ⟨used, e, rfl, rfl, ?_, ?_⟩
            · dsimp only
              rw [hhead₀, hhead]
              exact Nat.zero_lt_of_lt h.tail
            · dsimp only
              rw [hhead₀, hhead, htail₀]
              exact hcount
          tail := h₀.tail
          slot := fun i x hi => by
            obtain ⟨c, bucket, hc, hbucket, hstore⟩ := h₀.slot i x hi
            obtain ⟨bucket', hbucket', hsame⟩ := happended.bucket hbucket
            refine ⟨c, bucket', ?_, hbucket', by rw [hsame, hstore]⟩
            obtain ⟨hlt, -⟩ := List.getElem?_eq_some_iff.1 hc
            rw [getElem?_append_left hlt]
            exact hc }
  · exact ⟨buf, used, empty, by rw [Buffer.addBucket, hhead], h, by rw [hhead]; nofun⟩

theorem next_store {buckets : Nat → Option (BufBucket V)} {bucket : BufBucket V} (hb : buckets b = some bucket)
    (store : Nat → Option V) (c : Nat) :
    (update buckets b (some { bucket with store }) c).map BufBucket.next = (buckets c).map BufBucket.next := by
  by_cases hc : c = b
  · subst hc
    rw [next_update_self, hb]
    rfl
  · exact next_update_of_ne hc

theorem Dynamic.store {pre : List Nat} {bucket : BufBucket V} {head : BufIterator}
    (h : Dynamic B buf (pre ++ [b]) empty xs) (hbucket : buf.buckets b = some bucket) (hidx : buf.head.idx < B)
    (hcount : buf.tail.idx + xs.length = pre.length * B + buf.head.idx) (hfits : xs.length + 1 < 2 ^ 32)
    (elem : Option V)
    (hhead : head = ⟨0, none⟩ ∧ buf.head.idx + 1 = B ∨ head = ⟨buf.head.idx + 1, some b⟩ ∧ buf.head.idx + 1 < B) :
    Dynamic B { buf with
        buckets := update buf.buckets b
          (some { bucket with store := update bucket.store buf.head.idx elem })
        sz := xs.length + 1
        head := head } (pre ++ [b]) empty (xs ++ [elem]) := by
  have hplace := place (a := pre.length) hidx
  have hlen : buf.tail.idx + (xs ++ [elem]).length = pre.length * B + (buf.head.idx + 1) := by
    rw [length_append, length_singleton, ← Nat.add_assoc, hcount, Nat.add_assoc]
  exact
    { dynamic := h.dynamic
      bucketSz := h.bucketSz
      sz := by rw [length_append, length_singleton]
      fits := by rwa [length_append, length_singleton]
      nodup := h.nodup
      alive := fun c => by
        rw [← h.alive]
        by_cases hc : c = b
        · subst hc
          dsimp only
          rw [update_self, hbucket]
          exact ⟨fun _ => nofun, fun _ => nofun⟩
        · dsimp only
          rw [update_of_ne hc]
      below := h.below
      usedSeg := h.usedSeg.congr fun c _ => next_store hbucket _ c
      emptySeg := h.emptySeg.congr fun c _ => next_store hbucket _ c
      usedHead := h.usedHead
      emptyHead := h.emptyHead
      head := by
        rcases hhead with ⟨rfl, hlast⟩ | ⟨rfl, hlt⟩
        · refine .inl ⟨rfl, hlen.trans ?_⟩
          rw [hlast, length_append, length_singleton, Nat.succ_mul]
        · exact .inr ⟨pre, b, rfl, rfl, hlt, hlen⟩
      tail := h.tail
      slot := fun i x hi => by
        by_cases hlt : i < xs.length
        · rw [getElem?_append_left hlt] at hi
          obtain ⟨c, cbucket, hc, hcbucket, hstore⟩ := h.slot i x hi
          by_cases heq : c = b
          · subst heq
            cases hbucket.symm.trans hcbucket
            refine ⟨c, _, hc, update_self .., ?_⟩
            -- an earlier place of the last bucket
            have hlast : (pre ++ [c])[pre.length]? = some c := getElem?_concat_length
            have hdiv : (buf.tail.idx + i) / B = pre.length :=
              (getElem?_inj (List.getElem?_eq_some_iff.1 hc).1 (nodup_append.1 h.nodup).1).1
                (hc.trans hlast.symm)
            have hne : (buf.tail.idx + i) % B ≠ (pre.length * B + buf.head.idx) % B :=
              mod_ne (by omega) (by rw [hdiv, hplace.1])
            rw [hplace.2] at hne
            dsimp only
            rw [update_of_ne hne]
            exact hstore
          · refine ⟨c, cbucket, hc, ?_, hstore⟩
            dsimp only
            rwa [update_of_ne heq]
        · have hi' : i = xs.length := by
            have hbound := (List.getElem?_eq_some_iff.1 hi).1
            rw [length_append, length_singleton] at hbound
            omega
          subst hi'
          rw [getElem?_concat_length] at hi
          cases hi
          refine ⟨b, _, ?_, update_self .., ?_⟩
          · dsimp only
            rw [hcount, hplace.1, getElem?_concat_length]
          · dsimp only
            rw [hcount, hplace.2, update_self] }

theorem Dynamic.push (h : Dynamic B buf used empty xs) (hfits : xs.length + 1 < 2 ^ 32) (elem : Option V) :
    ∃ buf' used' empty', buf.push elem = some (true, buf') ∧ Dynamic B buf' used' empty' (xs ++ [elem]) := by
  obtain ⟨added, used, empty, hadd, hadded, hhead⟩ := h.addBucket
  rcases hadded.head with ⟨hnone, -⟩ | ⟨pre, b, rfl, hsome, hidx, hcount⟩
  · rw [hnone] at hhead
    exact absurd rfl hhead
  obtain ⟨bucket, hbucket⟩ := hadded.exists_bucket
    (mem_append_left empty (mem_append_right pre (mem_singleton_self b)))
  have hlink : added.link b = some none := hadded.usedSeg.link_last
  have hsz : uint (added.sz + 1) = xs.length + 1 := by
    rw [hadded.sz]
    exact Nat.mod_eq_of_lt hfits
  have hsave : added.save b added.head.idx elem = some { added with
      buckets := update added.buckets b
        (some { bucket with store := update bucket.store added.head.idx elem }) } := by
    rw [Buffer.save, if_pos (by rw [hadded.bucketSz]; exact hidx), hbucket]
    rfl
  have hlink' : (update added.buckets b
      (some { bucket with store := update bucket.store added.head.idx elem }) b).map BufBucket.next = some none :=
    (next_store hbucket _ b).trans hlink
  by_cases hlast : added.head.idx + 1 = B
  · refine ⟨_, _, _, ?_, hadded.store hbucket hidx hcount hfits elem (.inl ⟨rfl, hlast⟩)⟩
    rw [update_self] at hlink'
    simp [Buffer.push, h.dynamic, hadd, hsome, hsave, hadded.bucketSz, hlast, link, hlink', hsz]
  · refine ⟨_, _, _, ?_, hadded.store hbucket hidx hcount hfits elem (.inr ⟨rfl, by omega⟩)⟩
    simp [Buffer.push, h.dynamic, hadd, hsome, hsave, hadded.bucketSz, hlast, hsz]

theorem Dynamic.walk (h : Dynamic B buf used empty xs) (n p : Nat) (hp : buf.tail.idx ≤ p)
    (hn : p + n ≤ buf.tail.idx + xs.length) : ∃ it, buf.walk n ⟨p % B, used[p / B]?⟩ = some it := by
  have hpos := Nat.zero_lt_of_lt h.tail
  induction n generalizing p with
  | zero => exact ⟨_, rfl⟩
  | succ n ih =>
    obtain ⟨x, hx⟩ : ∃ x, xs[p - buf.tail.idx]? = some x := ⟨_, getElem?_eq_getElem (by omega)⟩
    obtain ⟨b, bucket, hb, hbucket, -⟩ := h.slot _ x hx
    rw [Nat.add_sub_cancel' hp] at hb
    obtain ⟨it, hit⟩ := ih (p + 1) (by omega) (by omega)
    refine ⟨it, ?_⟩
    by_cases hlast : p % B + 1 = B
    · obtain ⟨hdiv, hmod⟩ := (place_succ hpos).1 hlast
      have hlink := h.usedSeg.link_getElem? hb
      rw [Option.or_none] at hlink
      rw [hdiv, hmod] at hit
      simp [Buffer.walk, hb, h.bucketSz, hlast, hlink, hit]
    · obtain ⟨hdiv, hmod⟩ := (place_succ hpos).2 hlast
      rw [hdiv, hmod, hb] at hit
      simp [Buffer.walk, hb, h.bucketSz, hlast, hit]

end

/-! ## Fixed buffers -/

/-- The elements of the list are in the only bucket. -/
structure Fixed (B : Nat) (buf : Buffer V) (xs : List (Option V)) : Prop where
  dynamic : buf.dynamic = false
  bucketSz : buf.bucketSz = B
  small : B < 2 ^ 32
  sz : buf.sz = xs.length
  fits : xs.length ≤ B
  usedHead : buf.usedBucketsHead = some 0
  emptyHead : buf.emptyBucketsHead = none
  emptyTail : buf.emptyBucketsTail = none
  head : buf.head = ⟨(buf.tail.idx + xs.length) % B, some 0⟩
  tail : buf.tail.idx < B ∧ buf.tail.bucket = some 0
  store : ∃ store, buf.buckets = update (fun _ => none) 0 (some ⟨store, some 0⟩) ∧
    ∀ i x, xs[i]? = some x → store ((buf.tail.idx + i) % B) = x

section

variable {buf : Buffer V} {B : Nat} {xs : List (Option V)}

theorem Fixed.link (h : Fixed B buf xs) : buf.link 0 = some (some 0) := by
  obtain ⟨store, hbuckets, -⟩ := h.store
  rw [Buffer.link, hbuckets, update_self]
  rfl

theorem Fixed.chained (h : Fixed B buf xs) : buf.Chained := by
  obtain ⟨store, hbuckets, -⟩ := h.store
  refine ⟨[0], [], nodup_singleton 0, ?_, ?_, h.emptyTail, h.usedHead, h.emptyHead, .inr ?_⟩
  · intro b
    rw [hbuckets, append_nil, mem_singleton]
    by_cases hb : b = 0
    · subst hb
      rw [update_self]
      exact ⟨fun _ => rfl, fun _ => nofun⟩
    · rw [update_of_ne hb]
      exact ⟨fun hne => absurd rfl hne, fun heq => absurd heq hb⟩
  · rw [h.dynamic, h.tail.2]
    exact ⟨rfl, some 0, h.link, rfl⟩
  · rw [h.head]
    rfl

theorem Fixed.pop {x : Option V} (h : Fixed B buf (x :: xs)) :
    ∃ buf', buf.pop = some (x, buf') ∧ Fixed B buf' xs := by
  obtain ⟨store, hbuckets, hstore⟩ := h.store
  obtain ⟨hidx, htail⟩ := h.tail
  have hsz : buf.sz ≠ 0 := by
    rw [h.sz]
    exact Nat.succ_ne_zero _
  have hfirst := hstore 0 x rfl
  rw [Nat.add_zero, Nat.mod_eq_of_lt hidx] at hfirst
  have hload : buf.load 0 buf.tail.idx = some x := by
    rw [load, if_pos (by rw [h.bucketSz]; exact hidx), hbuckets, update_self]
    exact congrArg some hfirst
  have hlink := h.link
  have hfits := h.fits
  rw [length_cons] at hfits
  -- the places are the same, counted from the new tail
  have hplace : ∀ t i, t % B = (buf.tail.idx + 1) % B → (t + i) % B = (buf.tail.idx + (i + 1)) % B := by
    intro t i ht
    rw [Nat.add_mod, ht, ← Nat.add_mod, Nat.add_assoc, Nat.add_comm 1]
  have hnew : ∀ t, t < B → t % B = (buf.tail.idx + 1) % B →
      Fixed B { buf with sz := buf.sz - 1, tail := ⟨t, some 0⟩ } xs := by
    intro t hlt ht
    refine ⟨h.dynamic, h.bucketSz, h.small, ?_, by omega, h.usedHead, h.emptyHead, h.emptyTail, ?_, ⟨hlt, rfl⟩, store,
      hbuckets, ?_⟩
    · show buf.sz - 1 = xs.length
      rw [h.sz, length_cons, Nat.add_sub_cancel]
    · dsimp only
      rw [h.head, hplace t _ ht]
      rfl
    · intro i y hi
      dsimp only
      rw [hplace t i ht]
      exact hstore (i + 1) y hi
  by_cases hlast : buf.tail.idx + 1 = B
  · refine ⟨{ buf with sz := buf.sz - 1, tail := ⟨0, some 0⟩ }, ?_, hnew 0 (by omega) ?_⟩
    · simp [Buffer.pop, hsz, htail, hload, h.bucketSz, hlast, hlink, h.dynamic]
    · rw [hlast, Nat.mod_self, Nat.zero_mod]
  · refine ⟨{ buf with sz := buf.sz - 1, tail := ⟨buf.tail.idx + 1, some 0⟩ }, ?_, hnew _ (by omega) rfl⟩
    simp [Buffer.pop, hsz, htail, hload, h.bucketSz, hlast]

theorem Fixed.push (h : Fixed B buf xs) (hlt : xs.length < B) (elem : Option V) :
    ∃ buf', buf.push elem = some (true, buf') ∧ Fixed B buf' (xs ++ [elem]) := by
  obtain ⟨store, hbuckets, hstore⟩ := h.store
  obtain ⟨hidx, htail⟩ := h.tail
  have hpos : 0 < B := Nat.zero_lt_of_lt hidx
  have hmod : (buf.tail.idx + xs.length) % B < B := Nat.mod_lt _ hpos
  have hfull : buf.sz ≠ B := by
    rw [h.sz]
    omega
  have hadd : buf.addBucket = some buf := by rw [Buffer.addBucket, h.head]
  have hhead : buf.head.bucket = some 0 := by rw [h.head]
  have hheadIdx : buf.head.idx = (buf.tail.idx + xs.length) % B := by rw [h.head]
  have hsz : uint (buf.sz + 1) = xs.length + 1 := by
    rw [h.sz]
    have := h.small
    exact Nat.mod_eq_of_lt (by omega)
  have hsave : buf.save 0 ((buf.tail.idx + xs.length) % B) elem = some { buf with
      buckets := update (fun _ => none) 0
        (some ⟨update store ((buf.tail.idx + xs.length) % B) elem, some 0⟩) } := by
    rw [Buffer.save, if_pos (by rw [h.bucketSz]; exact hmod), hbuckets, update_self, Option.map_some,
      Function.update_idem]
  have hnew : ∀ i, i = (buf.tail.idx + (xs.length + 1)) % B → Fixed B { buf with
      buckets := update (fun _ => none) 0
        (some ⟨update store ((buf.tail.idx + xs.length) % B) elem, some 0⟩)
      sz := xs.length + 1
      head := ⟨i, some 0⟩ } (xs ++ [elem]) := by
    intro i hi
    refine ⟨h.dynamic, h.bucketSz, h.small, ?_, ?_, h.usedHead, h.emptyHead, h.emptyTail, ?_, h.tail, _, rfl, ?_⟩
    · rw [length_append, length_singleton]
    · rw [length_append, length_singleton]
      exact hlt
    · rw [length_append, length_singleton, hi]
    · intro j x hj
      by_cases hold : j < xs.length
      · rw [getElem?_append_left hold] at hj
        have hne : (buf.tail.idx + j) % B ≠ (buf.tail.idx + xs.length) % B := by
          rw [Circular.add_mod hidx (by omega), Circular.add_mod hidx hlt]
          split <;> split <;> omega
        rw [update_of_ne hne]
        exact hstore j x hj
      · have hj' : j = xs.length := by
          have hbound := (List.getElem?_eq_some_iff.1 hj).1
          rw [length_append, length_singleton] at hbound
          omega
        subst hj'
        rw [getElem?_concat_length] at hj
        cases hj
        exact update_self ..
  by_cases hlast : (buf.tail.idx + xs.length) % B + 1 = B
  · refine ⟨_, ?_, hnew 0 ?_⟩
    · simp [Buffer.push, h.dynamic, hfull, hadd, hhead, hheadIdx, hsave, h.bucketSz, hlast, Buffer.link, hsz]
    · exact ((place_succ hpos).1 hlast).2.symm
  · refine ⟨_, ?_, hnew _ ((place_succ hpos).2 hlast).2.symm⟩
    simp [Buffer.push, h.dynamic, hfull, hadd, hhead, hheadIdx, hsave, h.bucketSz, hlast, hsz]

theorem Fixed.push_full (h : Fixed B buf xs) (hfull : xs.length = B) (elem : Option V) :
    buf.push elem = some (false, buf) := by
  have heq : buf.sz = buf.bucketSz := by rw [h.sz, h.bucketSz, hfull]
  simp [Buffer.push, h.dynamic, heq]

theorem Fixed.walk (h : Fixed B buf xs) (n idx : Nat) : ∃ it, buf.walk n ⟨idx, some 0⟩ = some it := by
  induction n generalizing idx with
  | zero => exact ⟨_, rfl⟩
  | succ n ih =>
    by_cases hlast : idx + 1 = B
    · obtain ⟨it, hit⟩ := ih 0
      exact ⟨it, by simp [Buffer.walk, h.bucketSz, hlast, h.link, hit]⟩
    · obtain ⟨it, hit⟩ := ih (idx + 1)
      exact ⟨it, by simp [Buffer.walk, h.bucketSz, hlast, hit]⟩

end

/-! ## Runs -/

/-- The buffer has the elements of the list. -/
inductive Holds (B : Nat) (buf : Buffer V) (xs : List (Option V)) : Prop
  | dynamic {used empty : List Nat} (h : Dynamic B buf used empty xs)
  | fixed (h : Fixed B buf xs)

section

variable {buf : Buffer V} {B : Nat} {xs : List (Option V)} {op : Op V}

theorem Holds.bucketSz (h : Holds B buf xs) : buf.bucketSz = B := by
  cases h with
  | dynamic h => exact h.bucketSz
  | fixed h => exact h.bucketSz

theorem Holds.chained (h : Holds B buf xs) : buf.Chained ∧ buf.getSize = xs.length := by
  cases h with
  | dynamic h => exact ⟨h.chained, h.sz⟩
  | fixed h => exact ⟨h.chained, h.sz⟩

theorem holds_init (dynamic : Bool) (sz : UInt32) :
    Holds (init (V := V) dynamic sz).bucketSz (init dynamic sz) ([] : List (Option V)) := by
  have hpos : 0 < (init (V := V) dynamic sz).bucketSz := by
    show 0 < if 0 < sz.toNat then sz.toNat else DEFAULT_BUCKET_SZ
    split
    · assumption
    · decide
  have hsmall : (init (V := V) dynamic sz).bucketSz < 2 ^ 32 := by
    show (if 0 < sz.toNat then sz.toNat else DEFAULT_BUCKET_SZ) < 2 ^ 32
    split
    · exact sz.toNat_lt
    · decide
  cases dynamic with
  | false =>
    refine .fixed ⟨rfl, rfl, hsmall, rfl, Nat.zero_le _, rfl, rfl, rfl, ?_, ⟨hpos, rfl⟩, _, rfl, nofun⟩
    show (⟨0, some 0⟩ : BufIterator) = ⟨(0 + 0) % _, some 0⟩
    rw [Nat.zero_mod]
  | true =>
    have hdynamic : Dynamic (init (V := V) true sz).bucketSz (init (V := V) true sz) [0] [] [] := by
      refine ⟨rfl, rfl, rfl, Nat.two_pow_pos 32, nodup_singleton 0, ?_, ?_, ⟨rfl, none, rfl, rfl⟩, rfl, rfl, rfl,
        .inr ⟨[], 0, rfl, rfl, hpos, ?_⟩, hpos, nofun⟩
      · intro b
        show update (fun _ => none) 0 _ b ≠ none ↔ b ∈ [0]
        rw [mem_singleton]
        by_cases hb : b = 0
        · subst hb
          rw [update_self]
          exact ⟨fun _ => rfl, fun _ => nofun⟩
        · rw [update_of_ne hb]
          exact ⟨fun hne => absurd rfl hne, fun heq => absurd heq hb⟩
      · intro b hb
        rw [append_nil, mem_singleton] at hb
        subst hb
        exact Nat.zero_lt_one
      · show 0 + 0 = 0 * _ + 0
        rw [Nat.zero_mul]
    exact .dynamic hdynamic

theorem Holds.createCopy (h : Holds B buf xs) (shalow : Bool) :
    ∃ copy, buf.createCopy shalow = some copy ∧ copy.sz = 0 := by
  cases shalow with
  | true => exact ⟨_, rfl, rfl⟩
  | false =>
    have hwalk : ∃ it, buf.walk buf.sz buf.tail = some it := by
      cases h with
      | dynamic h =>
        have hbucket := h.usedSeg.head_eq
        rw [Option.or_none, head?_eq_getElem?] at hbucket
        obtain ⟨it, hit⟩ := h.walk buf.sz buf.tail.idx (Nat.le_refl _)
          (Nat.le_of_eq (congrArg _ h.sz))
        rw [Nat.div_eq_of_lt h.tail, Nat.mod_eq_of_lt h.tail, ← hbucket] at hit
        exact ⟨it, hit⟩
      | fixed h =>
        obtain ⟨it, hit⟩ := h.walk buf.sz buf.tail.idx
        rw [← h.tail.2] at hit
        exact ⟨it, hit⟩
    obtain ⟨it, hit⟩ := hwalk
    refine ⟨init buf.dynamic (UInt32.ofNat buf.bucketSz), ?_, rfl⟩
    rw [Buffer.createCopy, if_neg Bool.false_ne_true, hit]
    rfl

theorem Holds.exec_createCopy (h : Holds B buf xs) (shalow : Bool) :
    buf.exec (.createCopy shalow) = some (.copied [], buf) := by
  obtain ⟨copy, hcopy, hsz⟩ := h.createCopy shalow
  rw [exec, hcopy, Option.bind_some, hsz]
  rfl

theorem Holds.pop (h : Holds B buf xs) :
    ∃ buf', buf.pop = some (xs.head?.getD none, buf') ∧ Holds B buf' xs.tail ∧ buf'.dynamic = buf.dynamic := by
  cases xs with
  | nil =>
    have hsz : buf.sz = 0 := h.chained.2
    exact ⟨buf, if_pos hsz, h, rfl⟩
  | cons x xs =>
    cases h with
    | dynamic h =>
      obtain ⟨buf', used', empty', hpop, hdynamic⟩ := h.pop
      exact ⟨buf', hpop, .dynamic hdynamic, hdynamic.dynamic.trans h.dynamic.symm⟩
    | fixed h =>
      obtain ⟨buf', hpop, hfixed⟩ := h.pop
      exact ⟨buf', hpop, .fixed hfixed, hfixed.dynamic.trans h.dynamic.symm⟩

theorem Holds.exec (h : Holds B buf xs) (hok : Ok buf.dynamic xs op) :
    ∃ r buf', buf.exec op = some (r, buf') ∧ Agrees buf.dynamic B xs r (after buf.dynamic B xs op) op ∧
      Holds B buf' (after buf.dynamic B xs op) ∧ buf'.dynamic = buf.dynamic := by
  cases op with
  | push elem =>
    cases h with
    | dynamic h =>
      obtain ⟨buf', used', empty', hpush, hdynamic⟩ := h.push (hok h.dynamic) elem
      have hnot : ¬ (buf.dynamic = false ∧ xs.length = B) := by
        rw [h.dynamic]
        rintro ⟨hfalse, -⟩
        cases hfalse
      rw [after, if_neg hnot]
      refine ⟨.flag true, buf', by rw [Buffer.exec, hpush]; rfl, ?_, .dynamic hdynamic,
        hdynamic.dynamic.trans h.dynamic.symm⟩
      rw [Agrees, if_neg hnot]
      exact ⟨rfl, rfl⟩
    | fixed h =>
      by_cases hfull : xs.length = B
      · rw [after, if_pos ⟨h.dynamic, hfull⟩]
        refine ⟨.flag false, buf, by rw [Buffer.exec, h.push_full hfull]; rfl, ?_, .fixed h, rfl⟩
        rw [Agrees, if_pos ⟨h.dynamic, hfull⟩]
        exact ⟨rfl, rfl⟩
      · have hnot : ¬ (buf.dynamic = false ∧ xs.length = B) := fun hboth => hfull hboth.2
        obtain ⟨buf', hpush, hfixed⟩ := h.push (Nat.lt_of_le_of_ne h.fits hfull) elem
        rw [after, if_neg hnot]
        refine ⟨.flag true, buf', by rw [Buffer.exec, hpush]; rfl, ?_, .fixed hfixed,
          hfixed.dynamic.trans h.dynamic.symm⟩
        rw [Agrees, if_neg hnot]
        exact ⟨rfl, rfl⟩
  | pop =>
    obtain ⟨buf', hpop, hholds, hdynamic⟩ := h.pop
    refine ⟨.elem (xs.head?.getD none), buf', by rw [Buffer.exec, hpop]; rfl, ⟨_, rfl, ?_⟩, hholds, hdynamic⟩
    cases xs with
    | nil => exact ⟨⟨fun _ => rfl, fun _ => rfl⟩, rfl, rfl⟩
    | cons x xs =>
      cases x with
      | none => exact absurd rfl hok
      | some v => exact ⟨⟨nofun, nofun⟩, rfl, rfl⟩
  | getSize => exact ⟨.size xs.length, buf, by rw [Buffer.exec, h.chained.2], ⟨rfl, rfl⟩, h, rfl⟩
  | createCopy shalow =>
    refine ⟨.copied [], buf, h.exec_createCopy shalow, ?_, h, rfl⟩
    cases shalow with
    | true => exact ⟨rfl, rfl⟩
    | false =>
      rw [hok rfl]
      exact ⟨rfl, rfl⟩

theorem push_sz_lt {elem : Option V} {buf' : Buffer V} (h : buf.push elem = some (true, buf')) : buf'.sz < 2 ^ 32 := by
  rw [Buffer.push] at h
  split at h
  · cases h
  · obtain ⟨added, -, h⟩ := Option.bind_eq_some_iff.1 h
    obtain ⟨b, -, h⟩ := Option.bind_eq_some_iff.1 h
    obtain ⟨saved, -, h⟩ := Option.bind_eq_some_iff.1 h
    dsimp only at h
    split at h
    · obtain ⟨next, -, h⟩ := Option.bind_eq_some_iff.1 h
      cases h
      exact Nat.mod_lt _ (by decide)
    · cases h
      exact Nat.mod_lt _ (by decide)

theorem IsFifo.getSize {ops : List (Op V)} (h : IsFifo buf xs ops) : buf.getSize = xs.length := by
  cases ops with
  | nil => exact h.2
  | cons op ops => exact h.1.2

theorem Holds.ok (h : Holds B buf xs) {ops : List (Op V)} (hfifo : IsFifo buf xs (op :: ops)) :
    Ok buf.dynamic xs op := by
  obtain ⟨-, r, buf', xs', hexec, hagrees, hrest⟩ := hfifo
  cases op with
  | push elem =>
    intro hdynamic
    have hnot : ¬ (buf.dynamic = false ∧ xs.length = buf.bucketSz) := by
      rw [hdynamic]
      rintro ⟨hfalse, -⟩
      cases hfalse
    rw [Agrees, if_neg hnot] at hagrees
    obtain ⟨rfl, rfl⟩ := hagrees
    obtain ⟨⟨ok, pushed⟩, hpush, heq⟩ := Option.map_eq_some_iff.1 hexec
    cases heq
    have hsize : pushed.sz = (xs ++ [elem]).length := hrest.getSize
    rw [length_append, length_singleton] at hsize
    rw [← hsize]
    exact push_sz_lt hpush
  | pop =>
    obtain ⟨elem, -, -, hhead, -⟩ := hagrees
    rw [Ok, hhead]
    cases elem with
    | none => nofun
    | some v => nofun
  | getSize => trivial
  | createCopy shalow =>
    rintro rfl
    cases (h.exec_createCopy false).symm.trans hexec
    obtain ⟨hcopied, -⟩ := hagrees
    injection hcopied with hnil
    exact hnil.symm

theorem Agrees.eq_after {dynamic : Bool} {r : Result V} {xs' : List (Option V)}
    (h : Agrees dynamic B xs r xs' op) : xs' = after dynamic B xs op := by
  cases op with
  | push elem =>
    rw [Agrees] at h
    rw [after]
    split at h
    · rw [if_pos (by assumption)]
      exact h.2
    · rw [if_neg (by assumption)]
      exact h.2
  | pop =>
    obtain ⟨-, -, -, -, h⟩ := h
    exact h
  | getSize => exact h.2
  | createCopy shalow => exact h.2

theorem Holds.isFifo_iff (h : Holds B buf xs) (ops : List (Op V)) :
    IsFifo buf xs ops ↔ RunOk buf.dynamic B xs ops := by
  induction ops generalizing buf xs with
  | nil => exact ⟨fun _ => trivial, fun _ => h.chained⟩
  | cons op ops ih =>
    constructor
    · intro hfifo
      have hok := h.ok hfifo
      obtain ⟨-, r, buf', xs', hexec, hagrees, hrest⟩ := hfifo
      obtain ⟨r₁, buf₁, hexec₁, -, hholds, hdynamic⟩ := h.exec hok
      cases hexec.symm.trans hexec₁
      rw [h.bucketSz] at hagrees
      rw [hagrees.eq_after] at hrest
      have hrun := (ih hholds).1 hrest
      rw [hdynamic] at hrun
      exact ⟨hok, hrun⟩
    · rintro ⟨hok, hrun⟩
      obtain ⟨r, buf', hexec, hagrees, hholds, hdynamic⟩ := h.exec hok
      refine ⟨h.chained, r, buf', _, hexec, ?_, (ih hholds).2 ?_⟩
      · rw [h.bucketSz]
        exact hagrees
      · rw [hdynamic]
        exact hrun

end

/-- A buffer is a queue if and only if `NULL` does not come out of it, it does not get 2^32 elements, and nothing is
to be copied. -/
theorem buffer_is_fifo_iff (dynamic : Bool) (sz : UInt32) (ops : List (Op V)) :
    IsFifo (init dynamic sz) [] ops ↔ RunOk dynamic (if 0 < sz.toNat then sz.toNat else DEFAULT_BUCKET_SZ) [] ops :=
  (holds_init dynamic sz).isFifo_iff ops

/-- A copy of a buffer with one element is empty. -/
theorem copy_is_empty :
    (∃ buf : Buffer Nat, (init true 2).exec (.push (some 7)) = some (.flag true, buf) ∧ buf.getSize = 1 ∧
      (buf.exec (.createCopy false)).map Prod.fst = some (.copied [])) ∧
    ¬ IsFifo (init true 2) [] [Op.push (some 7), .createCopy false] := by
  refine ⟨⟨_, rfl, rfl, rfl⟩, ?_⟩
  rintro ⟨-, r, buf, xs, hexec, hagrees, -, r', buf', xs', hexec', hagrees', -⟩
  have hxs := hagrees.eq_after
  subst hxs
  cases hexec
  cases hexec'
  obtain ⟨hcopied, -⟩ := hagrees'
  injection hcopied with hnil
  cases hnil

end SNet.Svpgw.Buffer
