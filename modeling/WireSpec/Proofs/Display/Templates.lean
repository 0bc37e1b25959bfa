import Mathlib
import WireSpec.Plan
import WireSpec.Proofs.Token.Spelling
/-!
# Writing templates

Text is written into a template with each of its braces doubled, and a placeholder as a name in
single braces with any blanks around it.  What is read of this has the names of the placeholders in
their order, and shows the text and in place of each name the value of its field.
-/

namespace WireSpec

namespace Text

variable {left text right : List Char}

/-- There are no blanks around the text. -/
def IsTrimmed (text : List Char) : Prop :=
  (∀ c ∈ text.head?, isBlank c = false) ∧ ∀ c ∈ text.getLast?, isBlank c = false

theorem isTrimmed_singleton {c : Char} (hc : isBlank c = false) : IsTrimmed [c] := by
  constructor <;> rintro d ⟨⟩ <;> exact hc

theorem dropWhile_append_blanks (hleft : ∀ c ∈ left, isBlank c = true)
    (htext : ∀ c ∈ text.head?, isBlank c = false) : (left ++ text).dropWhile isBlank = text := by
  rw [List.dropWhile_append_of_pos hleft]
  cases text with
  | nil => rfl
  | cons c text => exact List.dropWhile_cons_of_neg (by simp [htext c rfl])

/-- The blanks around a text are left out. -/
theorem trim_append (hleft : ∀ c ∈ left, isBlank c = true) (hright : ∀ c ∈ right, isBlank c = true)
    (hne : text ≠ []) (htext : IsTrimmed text) : trim (left ++ text ++ right) = text := by
  have hfirst : ∀ c ∈ (text ++ right).head?, isBlank c = false := by
    rw [List.head?_append_of_ne_nil _ hne]
    exact htext.1
  have hlast : ∀ c ∈ text.reverse.head?, isBlank c = false := by
    rw [List.head?_reverse]
    exact htext.2
  unfold trim
  rw [List.append_assoc, dropWhile_append_blanks hleft hfirst, List.reverse_append,
    dropWhile_append_blanks (by simpa using hright) hlast, List.reverse_reverse]

end Text

namespace Template

variable {α : Type} {place : String → Option α} {shown : α → String}

/-! ### Writing -/

/-- Braces of the text are doubled. -/
def escape (text : List Char) : List Char :=
  text.flatMap fun c => if c = '\x7b' ∨ c = '\x7d' then [c, c] else [c]

/-- A name that can stand between braces. -/
structure IsName (name : List Char) : Prop where
  nonempty : name ≠ []
  trimmed : Text.IsTrimmed name
  opening_notMem : '\x7b' ∉ name
  closing_notMem : '\x7d' ∉ name

/-- The template can be written so: there may be blanks around each name. -/
inductive Writes : Template String → List Char → Prop where
  | nil : Writes [] []
  | text {rest : Template String} {written : List Char} (t : List Char) (h : Writes rest written) :
      Writes (.text t :: rest) (escape t ++ written)
  | hole {rest : Template String} {name left right written : List Char} (hname : IsName name)
      (hleft : ∀ c ∈ left, Text.isBlank c = true) (hright : ∀ c ∈ right, Text.isBlank c = true)
      (h : Writes rest written) :
      Writes (.hole (String.ofList name) :: rest)
        ('\x7b' :: (left ++ name ++ right ++ '\x7d' :: written))

/-- The same template with no piece of text empty or next to another. -/
def joined : Template α → Template α
  | [] => []
  | .text t :: rest => t.foldr consChar (joined rest)
  | .hole target :: rest => .hole target :: joined rest

/-! ### Reading what is written -/

theorem parse_cons {c : Char} (hopen : c ≠ '\x7b') (hclose : c ≠ '\x7d') (rest : List Char) :
    parse (c :: rest) = consChar c (parse rest) := by
  rw [parse]
  · exact fun _ h => absurd h hopen
  · exact fun _ h => absurd h hclose
  · exact hopen

/-- Doubled braces are taken in pairs, whatever follows the last of them. -/
theorem parse_escape (text rest : List Char) :
    parse (escape text ++ rest) = text.foldr consChar (parse rest) := by
  induction text with
  | nil => rfl
  | cons c text ih =>
      rw [List.foldr_cons, ← ih]
      by_cases hopen : c = '\x7b'
      · subst hopen
        exact parse.eq_2 _
      · by_cases hclose : c = '\x7d'
        · subst hclose
          exact parse.eq_3 _
        · have hescape : escape (c :: text) = c :: escape text := by simp [escape, hopen, hclose]
          rw [hescape, List.cons_append, parse_cons hopen hclose]

theorem parse_hole {inside rest : List Char} (hopen : ∀ c ∈ inside.head?, c ≠ '\x7b')
    (hclose : '\x7d' ∉ inside) :
    parse ('\x7b' :: (inside ++ '\x7d' :: rest)) =
      .hole (String.ofList (Text.trim inside)) :: parse rest := by
  have hname : (inside ++ '\x7d' :: rest).takeWhile (· != '\x7d') = inside := by
    refine takeWhile_append_stop ?_ ?_
    · exact fun c hc => bne_iff_ne.mpr fun heq => hclose (heq ▸ hc)
    · exact fun c hc => bne_eq_false_iff_eq.mpr (Option.some.inj hc).symm
  rw [parse]
  · rw [hname, if_neg (by simp)]
    simp
  · -- The brace that opens the placeholder is not doubled.
    rintro rest' h
    cases inside with
    | nil => simp at h
    | cons c inside => exact hopen c rfl (List.cons.inj h).1

/-- A name is read as it is, without the blanks around it. -/
theorem IsName.parse_eq {name left right rest : List Char} (hname : IsName name)
    (hleft : ∀ c ∈ left, Text.isBlank c = true) (hright : ∀ c ∈ right, Text.isBlank c = true) :
    parse ('\x7b' :: (left ++ name ++ right ++ '\x7d' :: rest)) =
      .hole (String.ofList name) :: parse rest := by
  have hbrace {brace : Char} (hblank : Text.isBlank brace = false) (hmem : brace ∉ name) :
      brace ∉ left ++ name ++ right := by
    simp only [List.mem_append, not_or]
    refine ⟨⟨fun h => ?_, hmem⟩, fun h => ?_⟩
    · exact ne_of_isBlank (hleft _ h) hblank rfl
    · exact ne_of_isBlank (hright _ h) hblank rfl
  have hopen : '\x7b' ∉ left ++ name ++ right := hbrace rfl hname.opening_notMem
  have hclose : '\x7d' ∉ left ++ name ++ right := hbrace rfl hname.closing_notMem
  rw [parse_hole (fun c hc => ?_) hclose, Text.trim_append hleft hright hname.nonempty hname.trimmed]
  rintro rfl
  exact hopen (List.mem_of_mem_head? hc)

theorem Writes.parse_eq {t : Template String} {written : List Char} (h : Writes t written) :
    parse written = joined t := by
  induction h with
  | nil => rw [parse, joined]
  | text t _ ih => rw [parse_escape, ih, joined]
  | hole hname hleft hright _ ih => rw [hname.parse_eq hleft hright, ih, joined]

/-! ### Joining pieces of text -/

theorem names_consChar (c : Char) (t : Template String) : names (consChar c t) = names t := by
  unfold consChar
  split <;> rfl

theorem isLiteral_consChar (c : Char) (t : Template α) :
    isLiteral (consChar c t) = isLiteral t := by
  unfold consChar
  split <;> rfl

theorem fill_cons (segment : Segment α) (rest : Template α) :
    fill shown (segment :: rest) = fill shown [segment] ++ fill shown rest := by
  simp [fill, String.join_cons]

theorem fill_consChar (c : Char) (t : Template α) :
    fill shown (consChar c t) = String.ofList [c] ++ fill shown t := by
  unfold consChar
  split
  · simp only [fill, List.map_cons, String.join_cons]
    rw [← String.append_assoc, ← String.ofList_append, List.singleton_append]
  · simp only [fill, List.map_cons, String.join_cons]

theorem bindNames_consChar (c : Char) (t : Template String) :
    bindNames place (consChar c t) = (bindNames place t).map (consChar c) := by
  cases t with
  | nil => rfl
  | cons segment rest =>
      cases segment with
      | text s =>
          rw [consChar, bindNames, bindNames]
          cases bindNames place rest <;> rfl
      | hole name =>
          simp only [consChar, bindNames]
          cases place name with
          | none => rfl
          | some target => cases bindNames place rest <;> rfl

/-- What does not depend on a character in front does not depend on a text in front. -/
theorem foldr_consChar_eq {β : Type} {f : Template α → β} (h : ∀ c t, f (consChar c t) = f t)
    (s : List Char) (t : Template α) : f (s.foldr consChar t) = f t := by
  induction s with
  | nil => rfl
  | cons c s ih => rw [List.foldr_cons, h, ih]

theorem fill_foldr_consChar (s : List Char) (t : Template α) :
    fill shown (s.foldr consChar t) = String.ofList s ++ fill shown t := by
  induction s with
  | nil => simp
  | cons c s ih =>
      rw [List.foldr_cons, fill_consChar, ih, ← String.append_assoc, ← String.ofList_append,
        List.singleton_append]

theorem bindNames_foldr_consChar (s : List Char) (t : Template String) :
    bindNames place (s.foldr consChar t) = (bindNames place t).map (s.foldr consChar ·) := by
  induction s with
  | nil => cases h : bindNames place t <;> simp [h, Except.map]
  | cons c s ih =>
      rw [List.foldr_cons, bindNames_consChar, ih]
      cases bindNames place t <;> rfl

theorem names_joined (t : Template String) : names (joined t) = names t := by
  induction t with
  | nil => rfl
  | cons segment rest ih =>
      cases segment with
      | text s => rw [joined, foldr_consChar_eq names_consChar, ih, names]
      | hole name => rw [joined, names, names, ih]

theorem isLiteral_joined (t : Template α) : isLiteral (joined t) = isLiteral t := by
  induction t with
  | nil => rfl
  | cons segment rest ih =>
      cases segment with
      | text s => rw [joined, foldr_consChar_eq isLiteral_consChar, ih, isLiteral]
      | hole target => rfl

theorem fill_joined (t : Template α) : fill shown (joined t) = fill shown t := by
  induction t with
  | nil => rfl
  | cons segment rest ih =>
      cases segment with
      | text s =>
          rw [joined, fill_foldr_consChar, ih]
          simp only [fill, List.map_cons, String.join_cons]
      | hole target =>
          simp only [joined, fill, List.map_cons, String.join_cons] at ih ⊢
          rw [ih]

theorem bindNames_joined (t : Template String) :
    bindNames place (joined t) = (bindNames place t).map joined := by
  induction t with
  | nil => rfl
  | cons segment rest ih =>
      cases segment with
      | text s =>
          rw [joined, bindNames_foldr_consChar, ih, bindNames]
          cases bindNames place rest <;> rfl
      | hole name =>
          simp only [joined, bindNames, ih]
          cases place name with
          | none => rfl
          | some target => cases bindNames place rest <;> rfl

/-! ### Binding names -/

/-- Names are looked up in their order, up to the first that cannot be bound. -/
theorem bindNames_eq_error {t : Template String} {name : String}
    (h : t.names.find? (fun n => (place n).isNone) = some name) :
    t.bindNames place = .error name := by
  induction t with
  | nil => cases h
  | cons segment rest ih =>
      cases segment with
      | text s => rw [bindNames, ih h, Except.map]
      | hole n =>
          rw [names, List.find?_cons] at h
          rw [bindNames]
          cases hplace : place n with
          | none =>
              rw [hplace] at h
              exact congrArg Except.error (Option.some.inj h)
          | some target =>
              rw [hplace] at h
              dsimp only
              rw [ih h, Except.map]

/-- Each name is bound to its place. -/
theorem exists_bindNames_eq_ok {t : Template String}
    (h : ∀ name ∈ t.names, (place name).isSome = true) :
    ∃ bound, t.bindNames place = .ok bound ∧ (bound.isLiteral = true ↔ t.names = []) ∧
      ∀ shown : α → String, bound.fill shown =
        t.fill fun name => ((place name).map shown).getD "" := by
  induction t with
  | nil => exact ⟨[], rfl, by simp [isLiteral, names], fun shown => rfl⟩
  | cons segment rest ih =>
      cases segment with
      | text s =>
          obtain ⟨bound, hbound, hliteral, hfill⟩ := ih h
          refine ⟨.text s :: bound, by rw [bindNames, hbound, Except.map], hliteral, ?_⟩
          intro shown
          rw [fill_cons, hfill, fill_cons (.text s) rest]
          rfl
      | hole name =>
          obtain ⟨hname, hrest⟩ := List.forall_mem_cons.mp h
          obtain ⟨target, htarget⟩ := Option.isSome_iff_exists.mp hname
          obtain ⟨bound, hbound, -, hfill⟩ := ih hrest
          refine ⟨.hole target :: bound, ?_, by simp [isLiteral, names], fun shown => ?_⟩
          · simp only [bindNames, htarget, hbound, Except.map]
          · rw [fill_cons, hfill, fill_cons (.hole name) rest]
            simp [fill, htarget]

/-! ### Rendering -/

/-- The value of the field at a place in the format of the field, and nothing where it is absent. -/
def valueText (fields : List FieldPlan) (slots : List (Option Value)) (place : Nat) : String :=
  match slots[place]?.join, fields[place]? with
  | some v, some f => v.formatted f.format f.fixedWidth
  | _, _ => ""

theorem render_eq_fill (t : Template Nat) (fields : List FieldPlan) (slots : List (Option Value)) :
    t.render fields slots = t.fill (valueText fields slots) := by
  unfold render
  congr 1
  funext place
  unfold valueText
  cases slots[place]? with
  | none => rfl
  | some slot =>
      cases slot with
      | none => rfl
      | some v => cases fields[place]? <;> rfl

/-- A piece of a template with the placeholders filled in. -/
def segmentText (place : String → Option Nat) (fields : List FieldPlan)
    (slots : List (Option Value)) : Segment String → String
  | .text s => String.ofList s
  | .hole name => ((place name).map (valueText fields slots)).getD ""

/-- Reading a written template looks up its names in their order, and fails with the first that has
no place.  Where all have places, filling it in gives the texts and the values of these fields one
after the other; and it is a literal one if it has no names. -/
theorem parse_written {t : Template String} {written : List Char} (h : Writes t written) :
    (parse written).names = t.names ∧
    ∀ place : String → Option Nat,
      (∀ name, t.names.find? (fun n => (place n).isNone) = some name →
        (parse written).bindNames place = .error name) ∧
      ((∀ name ∈ t.names, (place name).isSome = true) →
        ∃ bound, (parse written).bindNames place = .ok bound ∧
          (bound.isLiteral = true ↔ t.names = []) ∧
          ∀ fields slots,
            bound.render fields slots = String.join (t.map (segmentText place fields slots))) := by
  rw [h.parse_eq]
  refine ⟨names_joined t, fun place => ⟨fun name hname => ?_, fun hplaces => ?_⟩⟩
  · rw [bindNames_joined, bindNames_eq_error hname, Except.map]
  · obtain ⟨bound, hbound, hliteral, hfill⟩ := exists_bindNames_eq_ok hplaces
    refine ⟨joined bound, by rw [bindNames_joined, hbound, Except.map], ?_, fun fields slots => ?_⟩
    · rw [isLiteral_joined, hliteral]
    · rw [render_eq_fill, fill_joined, hfill, fill]
      congr 2
      funext segment
      cases segment <;> rfl

/-- A template with braces at the borders of its pieces. -/
def braced : Template String :=
  [.text ['a', '\x7b'], .hole "n", .text ['\x7d'], .hole "m", .text ['\x7b']]

theorem writes_braced : Writes braced
    "a\x7b\x7b\x7b n\t\x7d\x7d\x7d\x7bm\x7d\x7b\x7b".toList := by
  have hn : IsName ['n'] := ⟨by simp, Text.isTrimmed_singleton rfl, by simp, by simp⟩
  have hm : IsName ['m'] := ⟨by simp, Text.isTrimmed_singleton rfl, by simp, by simp⟩
  have hlast : Writes [.hole "m", .text ['\x7b']]
      ('\x7b' :: ([] ++ ['m'] ++ [] ++ '\x7d' :: (escape ['\x7b'] ++ []))) :=
    .hole hm (by simp) (by simp) (.text _ .nil)
  have hfirst : Writes braced (escape ['a', '\x7b'] ++ '\x7b' :: ([' '] ++ ['n'] ++ ['\t'] ++
      '\x7d' :: (escape ['\x7d'] ++
        '\x7b' :: ([] ++ ['m'] ++ [] ++ '\x7d' :: (escape ['\x7b'] ++ []))))) :=
    .text _ (.hole hn (by simp [Text.isBlank]) (by simp [Text.isBlank]) (.text _ hlast))
  exact hfirst

/-- The field of the first name is shown in its format, and that of the second is absent. -/
theorem parse_written_braced :
    (parse "a\x7b\x7b\x7b n\t\x7d\x7d\x7d\x7bm\x7d\x7b\x7b".toList).names = ["n", "m"] ∧
    ∃ bound, (parse "a\x7b\x7b\x7b n\t\x7d\x7d\x7d\x7bm\x7d\x7b\x7b".toList).bindNames
        (["m", "n"].idxOf? ·) = .ok bound ∧
      bound.isLiteral = false ∧
      bound.render [.plain "m" .char, { FieldPlan.plain "n" (.int .u8) with format := .hexadecimal }]
        [none, some (.int .u8 ⟨17, by decide⟩)] = "a\x7b0x11\x7d\x7b" := by
  obtain ⟨hnames, hbind⟩ := parse_written writes_braced
  obtain ⟨bound, hbound, hliteral, hrender⟩ := (hbind (["m", "n"].idxOf? ·)).2 (by decide)
  refine ⟨hnames, bound, hbound, ?_, ?_⟩
  · exact Bool.eq_false_iff.mpr (hliteral.not.mpr (by decide))
  · rw [hrender]
    decide +kernel

end Template

end WireSpec
