import WireSpec.Proofs.Codec.FieldValues
import WireSpec.Proofs.Codec.Layout
import WireSpec.Proofs.Formula.Machine
import WireSpec.Proofs.Plan.Widths
/-!
# Decoding on a machine

Decoding is done here by steps that trap where they cannot be taken: no byte is taken from behind
the end of the input, a number is read only from as many bytes as it has, and nothing negative is
the difference of two sizes.  With the plan of a decoder that compiles, no input makes a run trap.
-/

namespace WireSpec

/-! ### Text -/

namespace Machine

/-- The bytes two by two; an odd one is left out. -/
def pairs : Bytes → List Bytes
  | a :: b :: rest => [a, b] :: pairs rest
  | _ => []

theorem length_of_mem_pairs {raw pair : Bytes} (h : pair ∈ pairs raw) : pair.length = 2 := by
  fun_induction pairs raw with
  | case1 a b rest ih =>
      rcases List.mem_cons.mp h with rfl | h
      · rfl
      · exact ih h
  | case2 => cases h

theorem byteUnits?_eq_pairs (order : ByteOrder) (raw : Bytes) :
    Text.byteUnits? order raw =
      if raw.length % 2 = 0 then some ((pairs raw).map order.read) else none := by
  fun_induction Text.byteUnits? order raw with
  | case1 => rfl
  | case2 => rfl
  | case3 a b rest ih =>
      rw [ih]
      have hparity : (a :: b :: rest).length % 2 = rest.length % 2 := by
        simp only [List.length_cons]
        omega
      rw [hparity]
      split <;> rfl

theorem mapM_eq_ok {ε α β : Type} {f : α → Except ε β} {g : α → β} {items : List α}
    (h : ∀ x ∈ items, f x = .ok (g x)) : items.mapM f = .ok (items.map g) := by
  induction items with
  | nil => rfl
  | cons x rest ih =>
      obtain ⟨hfirst, hrest⟩ := List.forall_mem_cons.mp h
      rw [List.mapM_cons, hfirst, ih hrest]
      rfl

theorem bindM_eq_ok {ε α β : Type} {f : α → Except ε (Option β)} {g : α → Option β}
    (h : ∀ x, f x = .ok (g x)) (x : Option α) : x.bindM f = .ok (x.bind g) := by
  cases x with
  | none => rfl
  | some x => exact h x

/-- The text that bytes stand for, a unit of UTF-16 being a number of two bytes. -/
def text (e : Text.Encoding) (raw : Bytes) : Except Trap (Option String) :=
  match e with
  | .utf16 order =>
      if raw.length % 2 = 0 then do
        let units ← (pairs raw).mapM fun pair => order.read <$> exactly 2 pair
        return (Text.unitsText? units).map String.ofList
      else return none
  | e => .ok (e.decode raw)

theorem text_eq_ok (e : Text.Encoding) (raw : Bytes) : text e raw = .ok (e.decode raw) := by
  cases e with
  | utf16 order =>
      have hunits : (pairs raw).mapM (fun pair => order.read <$> exactly 2 pair) =
          .ok ((pairs raw).map order.read) := by
        apply mapM_eq_ok
        intro pair hpair
        rw [exactly_eq_ok (length_of_mem_pairs hpair)]
        rfl
      simp only [text, Text.Encoding.decode, byteUnits?_eq_pairs, hunits]
      split <;> rfl
  | utf8 | ascii | latin1 => rfl

end Machine

/-! ### Fields -/

namespace FieldPlan

def runEvaluate (f : FieldPlan) (env : Env) (formula : Formula) : Run CodecError Operand :=
  (formula.run env).adapt fun e => .evaluation f.name (.formula e)

def runSizeAt (f : FieldPlan) (input : Bytes) (offset : Nat) (slots : List (Option Value)) :
    Run CodecError Nat :=
  match f.width with
  | .fixed size => return size
  | .remaining => .step (Machine.subtract input.length offset)
  | .dynamic size => do
      match ← f.runEvaluate ⟨some input, slots⟩ size with
      | .int n =>
          if IntKind.u64.Holds n.val then return n.val.toNat
          else throw (.evaluation f.name (.negativeLength n))
      | other => throw (.evaluation f.name (.lengthNotInteger other.kind))

def runDecode (f : FieldPlan) (raw : Bytes) : Run CodecError Value :=
  match f.type.fixedWidth with
  | some size => do .done (f.decode (← .step (Machine.exactly size raw)))
  | none =>
      if f.type = .string then do
        match ← .step (Machine.text f.encoding raw) with
        | some s => return .string s
        | none => throw (.invalidEncoding f.name f.encoding)
      else .done (f.decode raw)

def runCheckRange (f : FieldPlan) (env : Env) (v : Value) : Run CodecError Unit := do
  match f.range with
  | none => return ()
  | some range =>
      let least ← f.runEvaluate env range.least
      let greatest ← f.runEvaluate env range.greatest
      let x := Operand.ofValue v
      let below := (x.order? least).all (· == .lt)
      let above := (x.order? greatest).all (· == .gt)
      if below || above then throw (.outOfRange f.name v least greatest)

def runCheckValid (f : FieldPlan) (env : Env) : Run CodecError Unit := do
  match f.validate with
  | none => return ()
  | some condition =>
      unless (← f.runEvaluate env condition).truthy do throw (.validationFailed f.name)

/-- Reads a field by steps of the machine.  A sum of two sizes that is no size itself lies behind the
end of any input. -/
def runRead (f : FieldPlan) (input : Bytes) (offset : Nat) (slots : List (Option Value)) :
    Run CodecError (Option Value × Nat) :=
  if f.optional && decide (input.length ≤ offset) then return (none, offset)
  else do
    let size ← f.runSizeAt input offset slots
    if input.length < offset + size then throw (.insufficientData f.name)
    let v ← f.runDecode (← .step (Machine.cut input offset (offset + size)))
    let env : Env := ⟨some input, slots ++ [some v]⟩
    f.runCheckRange env v
    f.runCheckValid env
    return (some v, offset + size)

variable {f : FieldPlan} {input : Bytes} {offset : Nat} {slots : List (Option Value)}

theorem runEvaluate_eq_done (f : FieldPlan) (env : Env) (formula : Formula) :
    f.runEvaluate env formula = .done (f.evaluate env formula) := by
  unfold runEvaluate
  rw [Formula.run_eq_done]
  rfl

theorem runSizeAt_eq_done (h : offset ≤ input.length) :
    f.runSizeAt input offset slots = .done (f.sizeAt input offset slots) := by
  unfold runSizeAt sizeAt
  cases f.width with
  | fixed size => rfl
  | remaining =>
      dsimp only
      rw [Machine.subtract_eq_ok h]
      rfl
  | dynamic size =>
      apply Run.bind_eq_done (runEvaluate_eq_done _ _ _)
      intro v _
      cases v with
      | int n =>
          dsimp only
          split <;> rfl
      | _ => rfl

theorem runDecode_eq_done {raw : Bytes} (h : ∀ size, f.type.fixedWidth = some size →
    raw.length = size) : f.runDecode raw = .done (f.decode raw) := by
  unfold runDecode
  cases hfixed : f.type.fixedWidth with
  | some size =>
      dsimp only
      rw [Machine.exactly_eq_ok (h size hfixed)]
      rfl
  | none =>
      dsimp only
      split
      · rename_i hstring
        rw [Machine.text_eq_ok]
        unfold decode
        rw [hstring]
        dsimp only
        cases f.encoding.decode raw <;> rfl
      · rfl

theorem runCheckRange_eq_done (f : FieldPlan) (env : Env) (v : Value) :
    f.runCheckRange env v = .done (f.checkRange env v) := by
  unfold runCheckRange checkRange
  cases f.range with
  | none => rfl
  | some range =>
      apply Run.bind_eq_done (runEvaluate_eq_done _ _ _)
      intro least _
      apply Run.bind_eq_done (runEvaluate_eq_done _ _ _)
      intro greatest _
      dsimp only
      split <;> rfl

theorem runCheckValid_eq_done (f : FieldPlan) (env : Env) :
    f.runCheckValid env = .done (f.checkValid env) := by
  unfold runCheckValid checkValid
  cases f.validate with
  | none => rfl
  | some condition =>
      apply Run.bind_eq_done (runEvaluate_eq_done _ _ _)
      intro x _
      cases x.truthy <;> rfl

theorem runRead_eq_done (hf : f.Sized) (h : offset ≤ input.length) :
    f.runRead input offset slots = .done (f.read input offset slots) := by
  unfold runRead read
  split
  · rfl
  · apply Run.bind_eq_done (runSizeAt_eq_done h)
    intro size hsize
    dsimp only
    split
    · rfl
    · rename_i hroom
      rw [Machine.cut_eq_ok (Nat.le_add_right offset size) (Nat.le_of_not_lt hroom), Run.step_ok,
        pure_bind, List.drop_take, Nat.add_sub_cancel_left]
      have hraw : ∀ n, f.type.fixedWidth = some n →
          ((input.drop offset).take size).length = n := by
        intro n hn
        have hwidth : size = n := by
          simpa [sizeAt, hf.fixed n hn, eq_comm] using hsize
        rw [List.length_take, List.length_drop]
        omega
      apply Run.bind_eq_done (runDecode_eq_done hraw)
      intro v _
      apply Run.bind_eq_done (runCheckRange_eq_done _ _ _)
      intro _ _
      exact Run.bind_eq_done (runCheckValid_eq_done _ _) fun _ _ => rfl

/-- A field is absent and takes nothing, or its value is decoded from bytes within the input. -/
theorem cases_of_read {slot : Option Value} {next : Nat}
    (hread : f.read input offset slots = .ok (slot, next)) :
    (slot = none ∧ next = offset) ∨
      ∃ v raw, slot = some v ∧ f.decode raw = .ok v ∧ next ≤ input.length := by
  unfold read at hread
  split at hread
  · cases hread
    exact .inl ⟨rfl, rfl⟩
  · obtain ⟨size, _, hread⟩ := except_bind_eq_ok.mp hread
    split at hread
    · cases hread
    · rename_i hroom
      obtain ⟨v, hdecode, hread⟩ := except_bind_eq_ok.mp hread
      obtain ⟨_, _, hread⟩ := except_bind_eq_ok.mp hread
      obtain ⟨_, _, hread⟩ := except_bind_eq_ok.mp hread
      cases hread
      exact .inr ⟨v, _, rfl, hdecode, Nat.le_of_not_lt hroom⟩

theorem next_le_length_of_read {slot : Option Value} {next : Nat} (h : offset ≤ input.length)
    (hread : f.read input offset slots = .ok (slot, next)) : next ≤ input.length := by
  rcases cases_of_read hread with ⟨_, rfl⟩ | ⟨_, _, _, _, hnext⟩
  · exact h
  · exact hnext

theorem type_of_read {v : Value} {next : Nat}
    (hread : f.read input offset slots = .ok (some v, next)) : v.type = f.type := by
  rcases cases_of_read hread with ⟨hnone, _⟩ | ⟨w, raw, hv, hdecode, _⟩
  · cases hnone
  · obtain rfl := Option.some.inj hv
    exact type_of_decode hdecode

end FieldPlan

/-! ### Display -/

/-- The digits that a numeral of so many bytes has at least. -/
def ValueFormat.digits : ValueFormat → Nat → Nat
  | hexadecimal, width => 2 * width
  | binary, width => 8 * width
  | octal, _ | default, _ | decimal, _ => 0

namespace Machine

/-- A numeral is filled up to a count of digits that is a number of 16 bits. -/
def numeral (format : ValueFormat) (bits width : Nat) : Except Trap String :=
  if format.digits width < UInt16.size then .ok (format.numeral bits width)
  else .error .wideNumeral

def formatted (v : Value) (format : ValueFormat) (width : Option Nat) : Except Trap String :=
  match format with
  | .default | .decimal => .ok v.text
  | format =>
      match v with
      | .bytes b => do
          let numerals ← b.mapM fun x => numeral format x.toNat 1
          return " ".intercalate numerals
      | v =>
          match v.bits? with
          | some bits => numeral format bits (width.getD 0)
          | none => .ok v.text

def segment (fields : List FieldPlan) (slots : List (Option Value)) :
    Segment Nat → Except Trap String
  | .text s => .ok (String.ofList s)
  | .hole place =>
      match slots[place]?, fields[place]? with
      | some (some v), some f => formatted v f.format f.fixedWidth
      | _, _ => .ok ""

def render (t : Template Nat) (fields : List FieldPlan) (slots : List (Option Value)) :
    Except Trap String := do
  let parts ← t.mapM (segment fields slots)
  return String.join parts

theorem numeral_eq_ok (format : ValueFormat) (bits : Nat) {width : Nat} (h : width ≤ 8) :
    numeral format bits width = .ok (format.numeral bits width) := by
  have hdigits : format.digits width < UInt16.size := by
    have hsize : UInt16.size = 65536 := rfl
    cases format <;> simp only [ValueFormat.digits] <;> omega
  exact if_pos hdigits

theorem formatted_eq_ok {v : Value} {format : ValueFormat} {width : Option Nat}
    (h : ∀ bits, v.bits? = some bits → width.getD 0 ≤ 8) :
    formatted v format width = .ok (v.formatted format width) := by
  have hnumerals (format : ValueFormat) (b : Bytes) :
      b.mapM (fun x => numeral format x.toNat 1) =
        .ok (b.map fun x => format.numeral x.toNat 1) :=
    mapM_eq_ok fun x _ => numeral_eq_ok format x.toNat (by decide)
  cases format with
  | default | decimal => rfl
  | hexadecimal | binary | octal =>
      cases v with
      | bytes b =>
          simp only [formatted, hnumerals]
          rfl
      | int | char | bool => exact numeral_eq_ok _ _ (h _ rfl)
      | float32 | float64 | string | null => rfl

/-- The slots hold values of the types of their fields. -/
def Typed (fields : List FieldPlan) (slots : List (Option Value)) : Prop :=
  ∀ (place : Nat) (v : Value) (f : FieldPlan), slots[place]? = some (some v) →
    fields[place]? = some f → v.type = f.type

theorem Typed.concat {fields : List FieldPlan} {slots : List (Option Value)} {f : FieldPlan}
    {slot : Option Value} (h : Typed fields slots) (hlength : slots.length = fields.length)
    (hslot : ∀ v, slot = some v → v.type = f.type) : Typed (fields ++ [f]) (slots ++ [slot]) := by
  intro place v g hv hg
  by_cases hplace : place < fields.length
  · rw [List.getElem?_append_left (by omega)] at hv
    rw [List.getElem?_append_left hplace] at hg
    exact h place v g hv hg
  · rw [List.getElem?_append_right (by omega), hlength, List.getElem?_singleton] at hv
    rw [List.getElem?_append_right (by omega), List.getElem?_singleton] at hg
    split at hg
    · rename_i hlast
      rw [if_pos hlast] at hv
      obtain rfl := Option.some.inj hg
      exact hslot v (Option.some.inj hv)
    · cases hg

/-- What is shown as a number has at most eight bytes. -/
theorem width_le_of_bits? {f : FieldPlan} {v : Value} {bits : Nat} (hf : f.Sized)
    (htype : v.type = f.type) (hbits : v.bits? = some bits) : f.fixedWidth.getD 0 ≤ 8 := by
  obtain ⟨size, hsize, hle⟩ : ∃ size, v.type.fixedWidth = some size ∧ size ≤ 8 := by
    cases v with
    | int kind x => exact ⟨kind.size, rfl, by cases kind <;> decide⟩
    | char | bool => exact ⟨1, rfl, by decide⟩
    | float32 | float64 | string | bytes | null => cases hbits
  rw [htype] at hsize
  simpa [FieldPlan.fixedWidth, hf.fixed size hsize] using hle

theorem render_eq_ok (t : Template Nat) {fields : List FieldPlan} {slots : List (Option Value)}
    (hfields : ∀ f ∈ fields, f.Sized) (htyped : Typed fields slots) :
    render t fields slots = .ok (t.render fields slots) := by
  unfold render Template.render Template.fill
  rw [mapM_eq_ok]
  · rfl
  · intro part _
    cases part with
    | text s => rfl
    | hole place =>
        dsimp only [segment]
        cases hslot : slots[place]? with
        | none => rfl
        | some slot =>
            cases slot with
            | none => rfl
            | some v =>
                cases hfield : fields[place]? with
                | none => rfl
                | some f =>
                    apply formatted_eq_ok
                    intro bits hbits
                    exact width_le_of_bits? (hfields f (List.mem_of_getElem? hfield))
                      (htyped place v f hslot hfield) hbits

end Machine

namespace Plan

def runFields (input : Bytes) :
    List FieldPlan → Nat → List (Option Value) → Run CodecError (List (Option Value) × Nat)
  | [], offset, slots => return (slots, offset)
  | f :: rest, offset, slots => do
      let (slot, next) ← f.runRead input offset slots
      runFields input rest next (slots ++ [slot])

def runApplies (env : Env) (r : Rule) : Except Trap Bool := do
  match ← (r.condition.run env).run with
  | .ok v => return v.truthy
  | .error _ => return false

def runFormulaText (env : Env) (formula : Formula) : Except Trap (Option String) := do
  match ← (formula.run env).run with
  | .ok v => return some v.text
  | .error _ => return none

def runDisplayText (p : Plan) (env : Env) : Display → Except Trap (Option String)
  | .template t => some <$> Machine.render t p.fields env.slots
  | .formula f => runFormulaText env f

def runAnnotate (p : Plan) (env : Env) : Except Trap (Option String × Option String) := do
  match ← p.rules.findM? (runApplies env) with
  | some r =>
      let display ← r.display.bindM (p.runDisplayText env)
      let color ← r.color.bindM (runFormulaText env)
      return (display, color)
  | none => return (none, none)

/-- Decodes a message by steps of the machine. -/
def run (p : Plan) (input : Bytes) : Run CodecError Decoded := do
  let (slots, consumed) ← runFields input p.fields 0 []
  let (display, color) ← .step (p.runAnnotate ⟨some input, slots⟩)
  return { fields := record p.fields slots, display, color, consumed }

variable {p : Plan} {input : Bytes} {fields : List FieldPlan} {slots : List (Option Value)}
  {offset : Nat}

/-- No field is read by a run from behind the end of the input, so none traps. -/
theorem runFields_eq_done (hfields : ∀ f ∈ fields, f.Sized) (h : offset ≤ input.length) :
    runFields input fields offset slots = .done (readFields input fields offset slots) := by
  induction fields generalizing offset slots with
  | nil => rfl
  | cons f rest ih =>
      obtain ⟨hfirst, hrest⟩ := List.forall_mem_cons.mp hfields
      apply Run.bind_eq_done (FieldPlan.runRead_eq_done hfirst h)
      rintro ⟨slot, next⟩ hread
      exact ih hrest (FieldPlan.next_le_length_of_read h hread)

theorem offset_le_length_of_readFields {before : List (Option Value)} {stop : Nat}
    (h : offset ≤ input.length) (hread : readFields input fields offset before = .ok (slots, stop)) :
    stop ≤ input.length := by
  induction fields generalizing offset before with
  | nil =>
      cases hread
      exact h
  | cons f rest ih =>
      obtain ⟨⟨slot, next⟩, hfirst, hrest⟩ := except_bind_eq_ok.mp hread
      exact ih (FieldPlan.next_le_length_of_read h hfirst) hrest

theorem typed_of_readFields {before : List (Option Value)} {front : List FieldPlan} {stop : Nat}
    (hlength : before.length = front.length) (h : Machine.Typed front before)
    (hread : readFields input fields offset before = .ok (slots, stop)) :
    Machine.Typed (front ++ fields) slots := by
  induction fields generalizing offset before front with
  | nil =>
      cases hread
      rwa [List.append_nil]
  | cons f rest ih =>
      obtain ⟨⟨slot, next⟩, hfirst, hrest⟩ := except_bind_eq_ok.mp hread
      rw [← List.singleton_append, ← List.append_assoc]
      refine ih (by simp [hlength]) (h.concat hlength ?_) hrest
      intro v hv
      subst hv
      exact FieldPlan.type_of_read hfirst

theorem runApplies_eq_ok (env : Env) (r : Rule) : runApplies env r = .ok (applies env r) := by
  unfold runApplies applies
  rw [Formula.run_eq_done]
  cases r.condition.eval env <;> rfl

theorem runFormulaText_eq_ok (env : Env) (formula : Formula) :
    runFormulaText env formula = .ok (formulaText? env formula) := by
  unfold runFormulaText formulaText?
  rw [Formula.run_eq_done]
  cases formula.eval env <;> rfl

theorem runDisplayText_eq_ok (hfields : ∀ f ∈ p.fields, f.Sized) {env : Env}
    (htyped : Machine.Typed p.fields env.slots) (d : Display) :
    p.runDisplayText env d = .ok (p.displayText? env d) := by
  cases d with
  | template t =>
      change some <$> Machine.render t p.fields env.slots = _
      rw [Machine.render_eq_ok t hfields htyped]
      rfl
  | formula f => exact runFormulaText_eq_ok env f

theorem runAnnotate_eq_ok (hfields : ∀ f ∈ p.fields, f.Sized) {env : Env}
    (htyped : Machine.Typed p.fields env.slots) :
    p.runAnnotate env = .ok (p.annotate env) := by
  have hfind : p.rules.findM? (runApplies env) = .ok (p.rules.find? (applies env)) := by
    rw [funext (runApplies_eq_ok env)]
    exact List.findM?_pure _ _
  unfold runAnnotate annotate
  rw [hfind]
  cases p.rules.find? (applies env) with
  | none => rfl
  | some r =>
      change (do
        let display ← r.display.bindM (p.runDisplayText env)
        let color ← r.color.bindM (runFormulaText env)
        return (display, color)) = _
      rw [Machine.bindM_eq_ok (runDisplayText_eq_ok hfields htyped),
        Machine.bindM_eq_ok (runFormulaText_eq_ok env)]
      rfl

theorem run_eq_done (hfields : ∀ f ∈ p.fields, f.Sized) (input : Bytes) :
    p.run input = .done (p.decode input) := by
  apply Run.bind_eq_done (runFields_eq_done hfields (Nat.zero_le _))
  rintro ⟨slots, consumed⟩ hread
  have hnone : Machine.Typed [] [] := fun _ _ _ hslot => nomatch hslot
  have htyped : Machine.Typed p.fields slots := typed_of_readFields rfl hnone hread
  dsimp only
  rw [runAnnotate_eq_ok hfields htyped]
  rfl

end Plan

/-- In a compiled plan, every width suits the type and the declaration of its field.  So no input
makes decoding trap: a run on the machine comes to what decoding gives, and no field begins behind
the end of the input. -/
theorem run_eq_decode_of_compile {source : String} {o : Options} {d : Decoder}
    (h : compile source o = .ok d) :
    (∃ (p : Protocol) (m : MessageDecl),
      (ParsedSource.ofScan (Scan.source source)).protocol = some p ∧
      (p.selectMessage o).value = some m ∧
      ∀ i (hi : i < d.plan.fields.length), ∃ decl, (allFields p m).value[i]? = some decl ∧
        decl.name = d.plan.fields[i].name ∧
          d.plan.fields[i].Measured decl (i + 1 = d.plan.fields.length)) ∧
    ∀ input, (d.plan.run input).run = .ok (d.plan.decode input) ∧
      ∀ place slots offset,
        Plan.readFields input (d.plan.fields.take place) 0 [] = .ok (slots, offset) →
          offset ≤ input.length := by
  obtain ⟨p, m, hparsed, hselected, hplan, hproblems⟩ := exists_plan_of_compile h
  refine ⟨⟨p, m, hparsed, hselected, ?_⟩, fun input => ⟨?_, fun place slots offset hread => ?_⟩⟩
  · rw [hplan]
    exact Context.measured_field hproblems
  · rw [Plan.run_eq_done (wellFormed_of_compile h).sized]
    rfl
  · exact Plan.offset_le_length_of_readFields (Nat.zero_le _) hread

/-- A message with padding that has no bytes, a computed length, and a field that takes the rest; the
first rule cannot be evaluated. -/
def shiftedSource : String :=
  "protocol P \x7b message M \x7b uint8 n format(hex); void gap; bytes body length(n * 2) " ++
    "validate(body[-1] << n != body[0..-1].length); string rest encoding(ascii); \x7d " ++
    "parser \x7b when (this[-9..2].length > 0) \x7b display \"never\"; \x7d " ++
    "when (n > 0) \x7b display \"\x7bn\x7d: \x7brest\x7d\"; \x7d \x7d \x7d"

theorem run_eq_decode_of_compile_shifted : ∃ d r, compile shiftedSource {} = .ok d ∧
    (d.plan.run [1, 5, 6, 97]).run = .ok (.ok r) ∧
    r.consumed = 4 ∧ r.display = some "0x01: a" := by
  have hrun : (compile shiftedSource {}).toOption.any (fun d =>
      (d.plan.decode [1, 5, 6, 97]).toOption.any fun r =>
        decide (r.consumed = 4 ∧ r.display = some "0x01: a")) = true := by
    decide +kernel
  obtain ⟨d, hcompile, hrun⟩ := exists_eq_ok_of_any hrun
  obtain ⟨r, hdecode, hr⟩ := exists_eq_ok_of_any hrun
  refine ⟨d, r, hcompile, ?_, of_decide_eq_true hr⟩
  rw [← hdecode]
  exact ((run_eq_decode_of_compile hcompile).2 [1, 5, 6, 97]).1

end WireSpec
