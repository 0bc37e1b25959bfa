import Mathlib
import WireSpec.Proofs.Codec.Reencoding
/-!
# Positions and slices

One convention holds for the positions of a sequence.  Those that are not negative count from its
begin and negative ones from its end; the end of a slice is excluded if it is not negative and
included if it is.  What this means for slices that meet and for single bytes is derived here from a
description of the bounds by equations, for sequences and positions of any size.
-/

namespace WireSpec

namespace Formula

/-! ### Bounds -/

/-- A slice of a sequence of the length reaches from `low` up to `high`. -/
structure IsSlice (start stop : Int) (length low high : Nat) : Prop where
  low_of_nonneg : 0 ≤ start → (low : Int) = start
  low_of_neg : start < 0 → (low : Int) = length + start
  high_of_nonneg : 0 ≤ stop → (high : Int) = stop
  high_of_neg : stop < 0 → (high : Int) = length + stop + 1 ∧ 0 < high
  low_le : low ≤ high
  high_le : high ≤ length

theorem resolve?_eq_some {position : Int} {length place : Nat} :
    resolve? position length = some place ↔
      (0 ≤ position → (place : Int) = position) ∧
        (position < 0 → (place : Int) = length + position) := by
  unfold resolve?
  by_cases hneg : position < 0
  · by_cases hplace : 0 ≤ length + position
    · simp only [if_pos hneg, if_pos hplace, Option.some.injEq]
      omega
    · simp only [if_pos hneg, if_neg hplace, reduceCtorEq, false_iff]
      omega
  · have hpos : 0 ≤ position := by omega
    simp only [if_neg hneg, if_pos hpos, Option.some.injEq]
    omega

theorem sliceBounds?_eq_some {start stop : Int} {length low high : Nat} :
    sliceBounds? start stop length = some (low, high) ↔ IsSlice start stop length low high := by
  have hbounds : sliceBounds? start stop length =
      (resolve? start length).bind fun low =>
        (if stop < 0 then (resolve? stop length).map (· + 1) else some stop.toNat).bind fun high =>
          if low ≤ high ∧ high ≤ length then some (low, high) else none := by
    unfold sliceBounds?
    split <;> rfl
  -- An end counted from the end is the position behind the one it resolves to.
  have hstop : (if stop < 0 then (resolve? stop length).map (· + 1) else some stop.toNat) =
      some high ↔ (0 ≤ stop → (high : Int) = stop) ∧
        (stop < 0 → (high : Int) = length + stop + 1 ∧ 0 < high) := by
    by_cases hneg : stop < 0
    · simp only [if_pos hneg, Option.map_eq_some_iff, resolve?_eq_some]
      constructor
      · rintro ⟨place, hplace, rfl⟩
        omega
      · intro h
        exact ⟨high - 1, by omega, by omega⟩
    · simp only [if_neg hneg, Option.some.injEq]
      omega
  rw [hbounds]
  simp only [Option.bind_eq_some_iff]
  constructor
  · rintro ⟨first, hfirst, last, hlast, h⟩
    split at h
    · rename_i hfits
      obtain ⟨rfl, rfl⟩ := Prod.mk.inj (Option.some.inj h)
      obtain ⟨hlow, hlow'⟩ := resolve?_eq_some.mp hfirst
      obtain ⟨hhigh, hhigh'⟩ := hstop.mp hlast
      exact ⟨hlow, hlow', hhigh, hhigh', hfits.1, hfits.2⟩
    · cases h
  · rintro ⟨hlow, hlow', hhigh, hhigh', hle, hlength⟩
    refine ⟨low, resolve?_eq_some.mpr ⟨hlow, hlow'⟩, high, hstop.mpr ⟨hhigh, hhigh'⟩, ?_⟩
    rw [if_pos ⟨hle, hlength⟩]

theorem isSlice_of_le {start stop : Int} {length : Nat} (hstart : 0 ≤ start) (hle : start ≤ stop)
    (hstop : stop ≤ length) : IsSlice start stop length start.toNat stop.toNat := by
  constructor <;> omega

/-- An end that counts from the end includes its byte. -/
theorem isSlice_inclusive_iff {start inner outer : Int} {length k low high : Nat} (hk : 1 ≤ k)
    (hlength : k ≤ length) (hinner : inner = -k) (houter : outer = length - k + 1) :
    IsSlice start inner length low high ↔ IsSlice start outer length low high := by
  constructor
  · rintro ⟨hlow, hlow', hhigh, hhigh', hle, hle'⟩
    constructor <;> omega
  · rintro ⟨hlow, hlow', hhigh, hhigh', hle, hle'⟩
    constructor <;> omega

/-- The slice of length one from a position on ends behind it, or at it where it counts from the
end. -/
theorem isSlice_one {position stop : Int} {length low : Nat}
    (hlow : resolve? position length = some low) (hlt : low < length)
    (hstop : 0 ≤ position ∧ stop = position + 1 ∨ position < 0 ∧ stop = position) :
    IsSlice position stop length low (low + 1) := by
  obtain ⟨hpos, hneg⟩ := resolve?_eq_some.mp hlow
  constructor <;> omega

/-- Slices that meet make up the slice from the begin of the one to the end of the other. -/
theorem drop_take_append (s : Bytes) {low middle high : Nat} (hlow : low ≤ middle)
    (hhigh : middle ≤ high) :
    (s.take middle).drop low ++ (s.take high).drop middle = (s.take high).drop low := by
  rw [List.drop_take, List.drop_take, List.drop_take]
  exact (Plan.take_drop_append s hlow hhigh).symm

/-! ### Evaluating slices and indexes -/

/-- What the formula evaluates to with a slice, whichever formulas give the positions. -/
def SlicesTo (env : Env) (o : Formula) (start stop : Int128) (result : Except EvalError Operand) :
    Prop :=
  ∀ f g : Formula, f.eval env = .ok (.int start) → g.eval env = .ok (.int stop) →
    (slice o f g).eval env = result

/-- What the formula evaluates to with an index. -/
def IndexesTo (env : Env) (o : Formula) (position : Int128) (result : Except EvalError Operand) :
    Prop :=
  ∀ f : Formula, f.eval env = .ok (.int position) → (index o f).eval env = result

section

variable {env : Env} {o : Formula} {q : Operand} {s : Bytes}

theorem slicesTo_bytesBetween (ho : o.eval env = .ok q) (hs : q.sequence? = some s)
    (start stop : Int128) : SlicesTo env o start stop (bytesBetween s start stop) := by
  intro f g hf hg
  have hsequence : indexable q = .ok s := by simp only [indexable, hs]
  simp only [eval, ho, hf, hg]
  change (do bytesBetween (← indexable q) start stop) = _
  rw [hsequence]
  rfl

theorem indexesTo_byteAt (ho : o.eval env = .ok q) (hs : q.sequence? = some s)
    (position : Int128) : IndexesTo env o position (byteAt s position) := by
  intro f hf
  have hsequence : indexable q = .ok s := by simp only [indexable, hs]
  simp only [eval, ho, hf]
  change (do byteAt (← indexable q) position) = _
  rw [hsequence]
  rfl

theorem slicesTo_of_isSlice (ho : o.eval env = .ok q) (hs : q.sequence? = some s)
    {start stop : Int128} {low high : Nat} (h : IsSlice start.val stop.val s.length low high) :
    SlicesTo env o start stop (.ok (.bytes ((s.take high).drop low))) := by
  have hbytes : bytesBetween s start stop = .ok (.bytes ((s.take high).drop low)) := by
    simp only [bytesBetween, sliceBounds?_eq_some.mpr h]
  rw [← hbytes]
  exact slicesTo_bytesBetween ho hs start stop

theorem slicesTo_of_eq_none (ho : o.eval env = .ok q) (hs : q.sequence? = some s)
    {start stop : Int128} (h : sliceBounds? start.val stop.val s.length = none) :
    SlicesTo env o start stop (.error (.sliceOutOfBounds start stop s.length)) := by
  have herror : bytesBetween s start stop = .error (.sliceOutOfBounds start stop s.length) := by
    simp only [bytesBetween, h]
  rw [← herror]
  exact slicesTo_bytesBetween ho hs start stop

theorem slicesTo_inclusive (ho : o.eval env = .ok q) (hs : q.sequence? = some s) {k : Nat}
    {start inner outer : Int128} (hk : 1 ≤ k) (hlength : k ≤ s.length) (hinner : inner.val = -k)
    (houter : outer.val = s.length - k + 1) {low : Nat}
    (hlow : resolve? start.val s.length = some low) (hle : low ≤ s.length - k + 1) :
    ∃ part, SlicesTo env o start inner (.ok (.bytes part)) ∧
      SlicesTo env o start outer (.ok (.bytes part)) := by
  obtain ⟨hpos, hneg⟩ := resolve?_eq_some.mp hlow
  have hslice : IsSlice start.val outer.val s.length low (s.length - k + 1) := by
    constructor <;> omega
  have hslice' := (isSlice_inclusive_iff hk hlength hinner houter).mpr hslice
  exact ⟨_, slicesTo_of_isSlice ho hs hslice', slicesTo_of_isSlice ho hs hslice⟩

theorem slicesTo_rejoined (ho : o.eval env = .ok q) (hs : q.sequence? = some s) {k : Nat}
    {zero before last behind : Int128} (hk : 1 ≤ k) (hlength : k < s.length) (hzero : zero.val = 0)
    (hbefore : before.val = -(k + 1)) (hbehind : behind.val = -k) (hlast : last.val = -1) :
    ∃ front back, SlicesTo env o zero before (.ok (.bytes front)) ∧
      SlicesTo env o behind last (.ok (.bytes back)) ∧ front ++ back = s := by
  have hfront : IsSlice zero.val before.val s.length 0 (s.length - k) := by
    constructor <;> omega
  have hback : IsSlice behind.val last.val s.length (s.length - k) s.length := by
    constructor <;> omega
  refine ⟨_, _, slicesTo_of_isSlice ho hs hfront, slicesTo_of_isSlice ho hs hback, ?_⟩
  rw [drop_take_append s (Nat.zero_le _) (Nat.sub_le _ _), List.drop_zero, List.take_length]

theorem indexesTo_of_resolve? (ho : o.eval env = .ok q) (hs : q.sequence? = some s)
    {position : Int128} {low : Nat} (hlow : resolve? position.val s.length = some low)
    (hlt : low < s.length) :
    ∃ x : Int128, x.val = s[low].toNat ∧ IndexesTo env o position (.ok (.int x)) := by
  have hbyte : byteAt s position = .ok (.ofUInt64 s[low].toUInt64) := by
    simp only [byteAt, hlow, Option.bind_some, List.getElem?_eq_getElem hlt]
  refine ⟨.ofUInt64 s[low].toUInt64, by simp [Int128.ofUInt64], ?_⟩
  have hindex := indexesTo_byteAt ho hs position
  rwa [hbyte] at hindex

theorem indexesTo_outside (ho : o.eval env = .ok q) (hs : q.sequence? = some s)
    {position : Int128} (h : position.val < -s.length ∨ s.length ≤ position.val) :
    IndexesTo env o position (.error (.indexOutOfBounds position s.length)) := by
  have hnone : (resolve? position.val s.length).bind (s[·]?) = none := by
    rw [Option.bind_eq_none_iff]
    intro place hplace
    have hplace := resolve?_eq_some.mp hplace
    rw [List.getElem?_eq_none_iff]
    omega
  have herror : byteAt s position = .error (.indexOutOfBounds position s.length) := by
    simp only [byteAt, hnone]
  rw [← herror]
  exact indexesTo_byteAt ho hs position

theorem drop_take_one {low : Nat} (h : low < s.length) :
    (s.take (low + 1)).drop low = [s[low]] := by
  rw [List.drop_take, List.drop_eq_getElem_cons h, Nat.add_sub_cancel_left]
  rfl

/-- Every slice of bytes or of a text is cut at its bounds, which lie in it, and there is an error
where it has none.  Slices that meet are joined to one; an end at the `k`-th byte from the end
includes this byte, so that the slice meets the one that begins behind it; and an index selects the
byte of the slice of length one that begins with it. -/
theorem slice_convention (ho : o.eval env = .ok q) (hs : q.sequence? = some s) :
    (∀ start stop : Int128,
      (∀ low high, sliceBounds? start.val stop.val s.length = some (low, high) →
        low ≤ high ∧ high ≤ s.length ∧
          SlicesTo env o start stop (.ok (.bytes ((s.take high).drop low)))) ∧
      (sliceBounds? start.val stop.val s.length = none →
        SlicesTo env o start stop (.error (.sliceOutOfBounds start stop s.length)))) ∧
    (∀ a b c : Int128, 0 ≤ a.val → a.val ≤ b.val → b.val ≤ c.val → c.val ≤ s.length →
      ∃ front back, SlicesTo env o a b (.ok (.bytes front)) ∧
        SlicesTo env o b c (.ok (.bytes back)) ∧
          SlicesTo env o a c (.ok (.bytes (front ++ back)))) ∧
    (∀ (k : Nat) (start inner outer : Int128), 1 ≤ k → k ≤ s.length → inner.val = -k →
      outer.val = s.length - k + 1 →
        sliceBounds? start.val inner.val s.length = sliceBounds? start.val outer.val s.length ∧
        ∀ low, resolve? start.val s.length = some low → low ≤ s.length - k + 1 →
          ∃ part, SlicesTo env o start inner (.ok (.bytes part)) ∧
            SlicesTo env o start outer (.ok (.bytes part))) ∧
    (∀ (k : Nat) (zero before behind last : Int128), 1 ≤ k → k < s.length → zero.val = 0 →
      before.val = -(k + 1) → behind.val = -k → last.val = -1 →
        ∃ front back, SlicesTo env o zero before (.ok (.bytes front)) ∧
          SlicesTo env o behind last (.ok (.bytes back)) ∧ front ++ back = s) ∧
    (∀ position : Int128,
      (-s.length ≤ position.val → position.val < s.length →
        ∃ (byte : UInt8) (x : Int128), x.val = byte.toNat ∧
          IndexesTo env o position (.ok (.int x)) ∧
          (0 ≤ position.val → ∀ next : Int128, next.val = position.val + 1 →
            SlicesTo env o position next (.ok (.bytes [byte]))) ∧
          (position.val < 0 → SlicesTo env o position position (.ok (.bytes [byte])))) ∧
      (position.val < -s.length ∨ s.length ≤ position.val →
        IndexesTo env o position (.error (.indexOutOfBounds position s.length)))) := by
  refine ⟨fun start stop => ⟨?_, slicesTo_of_eq_none ho hs⟩, ?_, ?_, ?_,
    fun position => ⟨?_, indexesTo_outside ho hs⟩⟩
  · intro low high h
    have hslice := sliceBounds?_eq_some.mp h
    exact ⟨hslice.low_le, hslice.high_le, slicesTo_of_isSlice ho hs hslice⟩
  · intro a b c ha hab hbc hc
    have hfront := isSlice_of_le ha hab (hbc.trans hc)
    have hback := isSlice_of_le (ha.trans hab) hbc hc
    have hwhole := isSlice_of_le ha (hab.trans hbc) hc
    refine ⟨_, _, slicesTo_of_isSlice ho hs hfront, slicesTo_of_isSlice ho hs hback, ?_⟩
    rw [drop_take_append s hfront.low_le hback.low_le]
    exact slicesTo_of_isSlice ho hs hwhole
  · intro k start inner outer hk hlength hinner houter
    refine ⟨?_, fun low => slicesTo_inclusive ho hs hk hlength hinner houter⟩
    apply Option.ext
    rintro ⟨low, high⟩
    rw [sliceBounds?_eq_some, sliceBounds?_eq_some]
    exact isSlice_inclusive_iff hk hlength hinner houter
  · intro k zero before behind last hk hlength hzero hbefore hbehind hlast
    exact slicesTo_rejoined ho hs hk hlength hzero hbefore hbehind hlast
  · intro hlow hhigh
    obtain ⟨place, hplace, hlt⟩ : ∃ place, resolve? position.val s.length = some place ∧
        place < s.length := by
      by_cases hneg : position.val < 0
      · refine ⟨(s.length + position.val).toNat, resolve?_eq_some.mpr ?_, ?_⟩ <;> omega
      · refine ⟨position.val.toNat, resolve?_eq_some.mpr ?_, ?_⟩ <;> omega
    obtain ⟨x, hx, hindex⟩ := indexesTo_of_resolve? ho hs hplace hlt
    refine ⟨s[place], x, hx, hindex, fun hpos next hnext => ?_, fun hneg => ?_⟩
    · rw [← drop_take_one hlt]
      exact slicesTo_of_isSlice ho hs (isSlice_one hplace hlt (.inl ⟨hpos, hnext⟩))
    · rw [← drop_take_one hlt]
      exact slicesTo_of_isSlice ho hs (isSlice_one hplace hlt (.inr ⟨hneg, rfl⟩))

end

/-- A request with its check in the last two bytes. -/
def checkedRequest : Bytes := [1, 3, 0, 0, 0, 2, 196, 11]

/-- The request without its check is joined to the check.  In a text positions count bytes, of which
`ñ` has two. -/
theorem slice_convention_request :
    (slice input (const (.int ⟨0, by decide⟩)) (const (.int ⟨-3, by decide⟩))).eval
      ⟨some checkedRequest, []⟩ = .ok (.bytes [1, 3, 0, 0, 0, 2]) ∧
    (∃ front back, SlicesTo ⟨some checkedRequest, []⟩ input ⟨0, by decide⟩ ⟨-3, by decide⟩
        (.ok (.bytes front)) ∧
      SlicesTo ⟨some checkedRequest, []⟩ input ⟨-2, by decide⟩ ⟨-1, by decide⟩ (.ok (.bytes back)) ∧
        front ++ back = checkedRequest) ∧
    (index (const (.string "añb")) (const (.int ⟨-5, by decide⟩))).eval .constant =
      .error (.indexOutOfBounds ⟨-5, by decide⟩ 4) ∧
    (slice (const (.string "añb")) (const (.int ⟨-2, by decide⟩))
      (const (.int ⟨-2, by decide⟩))).eval .constant = .ok (.bytes [177]) := by
  have hrequest : input.eval ⟨some checkedRequest, []⟩ = .ok (.bytes checkedRequest) := rfl
  have htext : (const (.string "añb")).eval .constant = .ok (.string "añb") := rfl
  have hletters : (Operand.string "añb").sequence? = some [97, 195, 177, 98] := by decide
  obtain ⟨hcut, -, -, hrejoined, -⟩ := slice_convention hrequest rfl
  obtain ⟨hcut', -, -, -, hindex⟩ := slice_convention htext hletters
  refine ⟨?_, ?_, ?_, ?_⟩
  · exact ((hcut _ _).1 0 6 (by decide)).2.2 _ _ rfl rfl
  · exact hrejoined 2 _ _ _ _ (by decide) (by decide) rfl rfl rfl rfl
  · exact (hindex _).2 (.inl (by decide)) _ rfl
  · exact ((hcut' _ _).1 2 3 (by decide)).2.2 _ _ rfl rfl

end Formula

end WireSpec
