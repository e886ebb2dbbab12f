import Telora.Json.Text
import Telora.Heap.RoundTrip

/-!
# JSON text round trips

What the parser reads in the rendering of a tree, number by number as it is written:
the value of the tree, except that a float without a fraction is written without a
point and comes back as an integer, or not at all.
-/

namespace Telora.Json

open Library

mutual

/-- The value that a tree stands for. -/
def Tree.value : Tree → Value
  | .null => noneValue
  | .true => trueValue
  | .false => falseValue
  | .int n => .int n
  | .float x => .float x
  | .string text => .string text
  | .array items => .array (itemValues items)
  | .object members => dictValue (memberValues members)

def itemValues : List Tree → List Value
  | [] => []
  | item :: rest => item.value :: itemValues rest

def memberValues : List (String × Tree) → List (String × Value)
  | [] => []
  | (key, member) :: rest => (key, member.value) :: memberValues rest

end

mutual

/-- What the parser reads in the rendering of a tree. -/
def Tree.reread : Tree → Except String Value
  | .null => .ok noneValue
  | .true => .ok trueValue
  | .false => .ok falseValue
  | .int n => number (intText n)
  | .float x => number x.display
  | .string text => .ok (.string text)
  | .array items => .array <$> rereadItems items
  | .object members => dictValue <$> rereadMembers [] members

def rereadItems : List Tree → Except String (List Value)
  | [] => .ok []
  | item :: rest => do
      let value ← item.reread
      (value :: ·) <$> rereadItems rest

def rereadMembers (fields : List (String × Value)) :
    List (String × Tree) → Except String (List (String × Value))
  | [] => .ok fields
  | (key, member) :: rest => do
      newKey fields key
      let value ← member.reread
      rereadMembers (insertEntry key value fields) rest

end

mutual

/-- A tree of 64 bit integers and finite floats, with the members in the order of their
keys. -/
def Tree.WellFormed : Tree → Prop
  | .int n => IsI64 n
  | .float x => x.isFinite = true
  | .array items => ItemsWellFormed items
  | .object members => (members.map (·.1)).Pairwise (· < ·) ∧ MembersWellFormed members
  | _ => True

def ItemsWellFormed : List Tree → Prop
  | [] => True
  | item :: rest => item.WellFormed ∧ ItemsWellFormed rest

def MembersWellFormed : List (String × Tree) → Prop
  | [] => True
  | (_, member) :: rest => member.WellFormed ∧ MembersWellFormed rest

end

mutual

/-- A tree with a float in it that has no fraction. -/
def Tree.HasIntegralFloat : Tree → Prop
  | .float x => x.IsIntegral
  | .array items => ItemsHaveIntegralFloat items
  | .object members => MembersHaveIntegralFloat members
  | _ => False

def ItemsHaveIntegralFloat : List Tree → Prop
  | [] => False
  | item :: rest => item.HasIntegralFloat ∨ ItemsHaveIntegralFloat rest

def MembersHaveIntegralFloat : List (String × Tree) → Prop
  | [] => False
  | (_, member) :: rest => member.HasIntegralFloat ∨ MembersHaveIntegralFloat rest

end

section Rendering

variable (errorLength : Mode → List Char → Nat) (indent : Option Nat)

theorem render_startsSolid {tree : Tree} (h : tree.WellFormed) (depth : Nat) :
    StartsSolid (tree.render indent depth) := by
  have hnumber : ∀ {text}, Decimal text → StartsSolid text := by
    intro text htext
    obtain ⟨c, rest, rfl, hc⟩ := htext.head
    refine ⟨c, rest, rfl, ?_⟩
    rw [Bool.eq_false_iff]
    intro hspace
    rcases isWhitespace_eq_true.mp hspace with rfl | rfl | rfl | rfl <;>
      rcases hc with hc | hc <;> cases hc
  cases tree with
  | null => exact ⟨_, _, rfl, by decide⟩
  | true => exact ⟨_, _, rfl, by decide⟩
  | false => exact ⟨_, _, rfl, by decide⟩
  | int n => exact hnumber (decimal_intText n)
  | float x => exact hnumber (decimal_display h)
  | string text => exact ⟨_, _, rfl, by decide⟩
  | array items => exact ⟨_, _, rfl, by decide⟩
  | object members => exact ⟨_, _, rfl, by decide⟩

theorem bracket_lBracket : Bracket errorLength '[' lBracket :=
  ⟨fun _ => rfl, rfl, rfl, rfl, by decide, fun _ c hc => by cases hc; decide⟩

theorem bracket_rBracket : Bracket errorLength ']' rBracket :=
  ⟨fun _ => rfl, rfl, rfl, rfl, by decide, fun _ c hc => by cases hc; decide⟩

theorem bracket_lBrace : Bracket errorLength '{' lBrace :=
  ⟨fun _ => rfl, rfl, rfl, rfl, by decide, fun _ c hc => by cases hc; decide⟩

theorem bracket_rBrace : Bracket errorLength '}' rBrace :=
  ⟨fun _ => rfl, rfl, rfl, rfl, by decide, fun _ c hc => by cases hc; decide⟩

mutual

/-- The rendering of a tree spells a syntax tree that is read as the tree is. -/
theorem Tree.written : ∀ (tree : Tree), tree.WellFormed → ∀ depth, ∃ source : Syntax,
    Written errorLength (tree.render indent depth) source.words ∧ source.value = tree.reread
  | .null, _, _ => ⟨.null, written_keyword errorLength (fun _ => rfl) rfl rfl, rfl⟩
  | .true, _, _ => ⟨.true, written_keyword errorLength (fun _ => rfl) rfl rfl, rfl⟩
  | .false, _, _ => ⟨.false, written_keyword errorLength (fun _ => rfl) rfl rfl, rfl⟩
  | .int n, _, _ =>
      ⟨.number (intText n), written_number errorLength (decimal_intText n), rfl⟩
  | .float x, h, _ => ⟨.number x.display, written_number errorLength (decimal_display h), rfl⟩
  | .string text, _, _ => by
      obtain ⟨pieces, hwritten, hdecode⟩ := written_string errorLength text
      refine ⟨.string pieces, hwritten, ?_⟩
      rw [Syntax.value, hdecode]
      rfl
  | .array items, h, depth => by
      obtain ⟨sources, hwritten, hvalue⟩ := itemsWritten items h (depth + 1)
      exact ⟨.array sources, written_collection errorLength indent depth
        (bracket_lBracket errorLength) (bracket_rBracket errorLength) hwritten _,
        congrArg (Value.array <$> ·) hvalue⟩
  | .object members, h, depth => by
      obtain ⟨sources, hwritten, hvalue⟩ := membersWritten members h.2 (depth + 1)
      exact ⟨.object sources, written_collection errorLength indent depth
        (bracket_lBrace errorLength) (bracket_rBrace errorLength) hwritten _,
        congrArg (dictValue <$> ·) (hvalue [])⟩

theorem itemsWritten : ∀ (items : List Tree), ItemsWellFormed items → ∀ depth,
    ∃ sources : List Syntax,
      WrittenAll errorLength (renderItems indent depth items) (itemsWords sources) ∧
      itemsValues sources = rereadItems items
  | [], _, _ => ⟨[], .nil, rfl⟩
  | item :: rest, h, depth => by
      obtain ⟨source, hwritten, hvalue⟩ := Tree.written item h.1 depth
      obtain ⟨sources, hrest, hvalues⟩ := itemsWritten rest h.2 depth
      refine ⟨source :: sources, .cons ⟨hwritten, render_startsSolid indent h.1 depth⟩ hrest, ?_⟩
      rw [itemsValues, hvalue, hvalues, rereadItems]

theorem membersWritten : ∀ (members : List (String × Tree)), MembersWellFormed members →
    ∀ depth, ∃ sources : List (List Piece × Syntax),
      WrittenAll errorLength (renderMembers indent depth members) (membersWords sources) ∧
      ∀ fields, membersFields fields sources = rereadMembers fields members
  | [], _, _ => ⟨[], .nil, fun _ => rfl⟩
  | (key, member) :: rest, h, depth => by
      obtain ⟨source, hwritten, hvalue⟩ := Tree.written member h.1 depth
      obtain ⟨sources, hrest, hvalues⟩ := membersWritten rest h.2 depth
      obtain ⟨pieces, hdecode, hmember⟩ := written_member errorLength indent key
      refine ⟨(pieces, source) :: sources, .cons ⟨hmember hwritten
        (render_startsSolid indent h.1 depth), ⟨_, _, rfl, by decide⟩⟩ hrest, fun fields => ?_⟩
      simp only [membersFields, hdecode, hvalue, hvalues, rereadMembers]
      rfl

end

variable (parser : Parser)

/-- Parsing the rendering of a tree. -/
theorem parseJson_render {tree : Tree} (h : tree.WellFormed) {fragments : List (List Char)}
    (htext : fragments.flatten = tree.render indent 0) :
    parseJson errorLength parser fragments = tree.reread := by
  obtain ⟨source, hwritten, hvalue⟩ := Tree.written errorLength indent tree h 0
  obtain ⟨lexemes, htokens, hspells, hvalid⟩ := hwritten [] (fun c hc => by cases hc)
  simp only [List.append_nil, Lexer.tokens_nil] at htokens
  have htokenize : tokenize errorLength fragments.flatten = lexemes := by
    rw [tokenize, htext, htokens]
  rw [← hvalue]
  exact parseJson_spells errorLength parser (htokenize ▸ hvalid) (htokenize ▸ hspells)

end Rendering

section Reread

theorem Decimal.chars {text : List Char} (h : Decimal text) :
    ∀ c ∈ text, c.isDigit = true ∨ c = '-' ∨ c = '.' := by
  obtain ⟨negative, whole, fraction, rfl, hfraction⟩ := h.parts
  intro c hmem
  rcases List.mem_append.mp hmem with hsign | hmem
  · refine .inr (.inl ?_)
    cases negative with
    | true => exact List.mem_singleton.mp hsign
    | false => cases hsign
  · rcases List.mem_append.mp hmem with hwhole | hmem
    · exact .inl (F64.all_isDigit_toDigits whole c hwhole)
    · rcases hfraction with rfl | ⟨digits, -, hdigits, rfl⟩
      · cases hmem
      · rcases List.mem_cons.mp hmem with rfl | hmem
        · exact .inr (.inr rfl)
        · exact .inl (hdigits c hmem)

/-- A written number is read as a float exactly when it has a point. -/
theorem Decimal.any_point {text : List Char} (h : Decimal text) :
    text.any (· ∈ ['.', 'e', 'E']) = true ↔ '.' ∈ text := by
  rw [List.any_eq_true]
  constructor
  · rintro ⟨c, hmem, hc⟩
    have hcases : c = '.' ∨ c = 'e' ∨ c = 'E' := by simpa using hc
    rcases h.chars c hmem with hdigit | rfl | rfl
    · rcases hcases with rfl | rfl | rfl
      · exact hmem
      · cases hdigit
      · cases hdigit
    · simp at hcases
    · exact hmem
  · exact fun hmem => ⟨'.', hmem, by decide⟩

theorem point_not_mem_intText (n : Int) : '.' ∉ intText n := by
  have hdigits : '.' ∉ Nat.toDigits 10 n.natAbs := fun hmem =>
    absurd (F64.all_isDigit_toDigits _ '.' hmem) (by decide)
  unfold intText
  split
  · simp [hdigits]
  · exact hdigits

/-- An integer is read back. -/
theorem parseI64_intText {n : Int} (h : IsI64 n) : parseI64 (intText n) = some n := by
  obtain ⟨c, digits, htext, hdigit, -⟩ := toDigits_head n.natAbs
  have hsplit : splitSign (intText n) = (decide (n < 0), c :: digits) := by
    rw [← splitSign_of_digit hdigit, intText, htext]
    by_cases hnegative : n < 0 <;> simp [hnegative]
  have hdigits : c :: digits ≠ [] ∧ (c :: digits).all Char.isDigit = true := by
    rw [← htext]
    exact ⟨Nat.toDigits_ne_nil, List.all_eq_true.mpr (F64.all_isDigit_toDigits _)⟩
  have hread : Nat.ofDigitChars 10 (c :: digits) 0 = n.natAbs := by
    rw [← htext, Nat.ofDigitChars_ten_toDigits]
  have hvalue : (if decide (n < 0) = true then -(n.natAbs : Int) else n.natAbs) = n := by
    split
    · next hnegative =>
        have := of_decide_eq_true hnegative
        omega
    · next hnegative =>
        have := of_decide_eq_false (Bool.eq_false_iff.mpr hnegative)
        omega
  simp only [parseI64, hsplit, if_pos hdigits, hread, hvalue]
  exact if_pos h

theorem number_intText {n : Int} (h : IsI64 n) : number (intText n) = .ok (.int n) := by
  have hpoint : ¬(intText n).any (· ∈ ['.', 'e', 'E']) = true := fun hany =>
    point_not_mem_intText n ((decimal_intText n).any_point.mp hany)
  rw [number, if_neg hpoint, parseI64_intText h]

/-- A finite float is read back exactly when it has a fraction. -/
theorem number_display {x : F64} (h : x.isFinite = true) :
    number x.display = .ok (.float x) ↔ ¬x.IsIntegral := by
  rw [← F64.point_mem_display_iff h, ← (decimal_display h).any_point, number]
  split
  · next hpoint =>
      rw [F64.parse_display h]
      simp only [h, if_true, hpoint]
  · next hpoint =>
      refine iff_of_false ?_ hpoint
      split
      · intro hfloat
        cases hfloat
      · intro hfloat
        cases hfloat

theorem dictValue_injective : Function.Injective dictValue := by
  intro left right h
  obtain ⟨hkeys, hvalues⟩ := Value.dict.inj h
  exact ext_of_map hkeys hvalues

theorem map_eq_ok_iff {α β : Type} {f : α → β} (hf : Function.Injective f) {x : Except String α}
    {a : α} : f <$> x = .ok (f a) ↔ x = .ok a := by
  cases x with
  | error e => exact ⟨fun h => (by cases h), fun h => (by cases h)⟩
  | ok b => exact ⟨fun h => congrArg _ (hf (Except.ok.inj h)), fun h => by rw [h]; rfl⟩

/-- A key after all others is new, and is inserted at the end. -/
theorem newKey_of_lt {fields : List (String × Value)} {key : String}
    (h : ∀ field ∈ fields, field.1 < key) : newKey fields key = .ok () := by
  refine if_neg fun hany => ?_
  obtain ⟨field, hmem, hkey⟩ := List.any_eq_true.mp hany
  exact absurd (h field hmem) (by rw [beq_iff_eq.mp hkey]; exact lt_irrefl key)

theorem insertEntry_of_lt {fields : List (String × Value)} {key : String} (value : Value)
    (h : ∀ field ∈ fields, field.1 < key) :
    insertEntry key value fields = fields ++ [(key, value)] := by
  induction fields with
  | nil => rfl
  | cons field rest ih =>
      obtain ⟨hfield, hrest⟩ := List.forall_mem_cons.mp h
      rw [insertEntry, if_neg (not_lt.mpr hfield.le), if_neg hfield.ne', ih hrest]
      rfl

/-- Keys below the keys of the members that follow. -/
def Below (fields : List (String × Value)) (members : List (String × Tree)) : Prop :=
  ∀ field ∈ fields, ∀ member ∈ members, field.1 < member.1

theorem Below.next {fields : List (String × Value)} {key : String} {tree : Tree}
    {members : List (String × Tree)} (h : Below fields ((key, tree) :: members)) (value : Value)
    (hsorted : (((key, tree) :: members).map (·.1)).Pairwise (· < ·)) :
    Below (fields ++ [(key, value)]) members := by
  intro field hfield member hmember
  rcases List.mem_append.mp hfield with hfield | hfield
  · exact h field hfield member (List.mem_cons_of_mem _ hmember)
  · rw [List.mem_singleton.mp hfield]
    exact (List.pairwise_cons.mp hsorted).1 _ (List.mem_map_of_mem hmember)

/-- Reading a member whose key comes next. -/
theorem rereadMembers_cons {fields : List (String × Value)} {key : String} {tree : Tree}
    {members : List (String × Tree)} (h : Below fields ((key, tree) :: members)) :
    rereadMembers fields ((key, tree) :: members) = (do
      let value ← tree.reread
      rereadMembers (fields ++ [(key, value)]) members) := by
  have hkey : ∀ field ∈ fields, field.1 < key := fun field hmem =>
    h field hmem (key, tree) List.mem_cons_self
  rw [rereadMembers, newKey_of_lt hkey]
  simp only [insertEntry_of_lt _ hkey]
  rfl

/-- The fields that were read stay at the front. -/
theorem fields_extended {members : List (String × Tree)} :
    ∀ {fields result : List (String × Value)}, (members.map (·.1)).Pairwise (· < ·) →
      Below fields members → rereadMembers fields members = .ok result → fields <+: result := by
  induction members with
  | nil =>
      intro fields result _ _ h
      obtain rfl := Except.ok.inj h
      exact List.prefix_refl _
  | cons member rest ih =>
      obtain ⟨key, tree⟩ := member
      intro fields result hsorted hbelow h
      rw [rereadMembers_cons hbelow] at h
      obtain ⟨value, -, h⟩ := bind_eq_ok.mp h
      have hprefix := ih (List.pairwise_cons.mp hsorted).2 (hbelow.next value hsorted) h
      exact (List.prefix_append _ _).trans hprefix

mutual

/-- A tree is read back as its value exactly when all its floats have a fraction. -/
theorem Tree.reread_eq_iff : ∀ tree : Tree, tree.WellFormed →
    (tree.reread = .ok tree.value ↔ ¬tree.HasIntegralFloat)
  | .null, _ => iff_of_true rfl id
  | .true, _ => iff_of_true rfl id
  | .false, _ => iff_of_true rfl id
  | .int _, h => iff_of_true (number_intText h) id
  | .float _, h => number_display h
  | .string _, _ => iff_of_true rfl id
  | .array items, h =>
      (map_eq_ok_iff fun _ _ => Value.array.inj).trans (rereadItems_eq_iff items h)
  | .object members, h => (map_eq_ok_iff dictValue_injective).trans
      (rereadMembers_eq_iff members h.2 h.1 [] fun _ hmem => absurd hmem List.not_mem_nil)

theorem rereadItems_eq_iff : ∀ items : List Tree, ItemsWellFormed items →
    (rereadItems items = .ok (itemValues items) ↔ ¬ItemsHaveIntegralFloat items)
  | [], _ => iff_of_true rfl id
  | item :: rest, h => by
      rw [ItemsHaveIntegralFloat, not_or, ← Tree.reread_eq_iff item h.1,
        ← rereadItems_eq_iff rest h.2, rereadItems, bind_eq_ok]
      constructor
      · rintro ⟨value, hvalue, hrest⟩
        cases hread : rereadItems rest with
        | error e =>
            rw [hread] at hrest
            cases hrest
        | ok values =>
            rw [hread] at hrest
            obtain ⟨rfl, rfl⟩ := List.cons.inj (Except.ok.inj hrest)
            exact ⟨hvalue, rfl⟩
      · rintro ⟨hvalue, hrest⟩
        exact ⟨item.value, hvalue, by rw [hrest]; rfl⟩

theorem rereadMembers_eq_iff : ∀ members : List (String × Tree), MembersWellFormed members →
    (members.map (·.1)).Pairwise (· < ·) → ∀ fields, Below fields members →
    (rereadMembers fields members = .ok (fields ++ memberValues members) ↔
      ¬MembersHaveIntegralFloat members)
  | [], _, _, fields, _ => iff_of_true (by rw [memberValues, List.append_nil]; rfl) id
  | (key, tree) :: rest, h, hsorted, fields, hbelow => by
      have hrest := (List.pairwise_cons.mp hsorted).2
      have hnext := hbelow.next tree.value hsorted
      have hsplit : fields ++ memberValues ((key, tree) :: rest) =
          fields ++ [(key, tree.value)] ++ memberValues rest := by simp [memberValues]
      rw [MembersHaveIntegralFloat, not_or, ← Tree.reread_eq_iff tree h.1,
        ← rereadMembers_eq_iff rest h.2 hrest _ hnext, rereadMembers_cons hbelow, bind_eq_ok, hsplit]
      constructor
      · rintro ⟨value, hvalue, hread⟩
        -- what was read for this member is in front of the rest
        obtain ⟨more, hmore⟩ := fields_extended hrest (hbelow.next value hsorted) hread
        have hfirst : value = tree.value := by
          simp only [List.append_assoc, List.append_cancel_left_eq] at hmore
          simpa using (List.cons.inj hmore).1
        rw [hfirst] at hvalue hread
        exact ⟨hvalue, hread⟩
      · rintro ⟨hvalue, hread⟩
        exact ⟨tree.value, hvalue, hread⟩

end

end Reread

section Values

/-- A value without functions, whose atoms have the representation of the heap. -/
def Plain (value : Value) : Prop := value.canonical = value ∧ value.functions = []

theorem plain_all {values : List Value} (h : ∀ value ∈ values, Plain value) :
    canonicalValues values = values ∧ valuesFunctions values = [] := by
  induction values with
  | nil => exact ⟨rfl, rfl⟩
  | cons value rest ih =>
      obtain ⟨hvalue, hrest⟩ := List.forall_mem_cons.mp h
      obtain ⟨hcanonical, hfunctions⟩ := ih hrest
      constructor
      · rw [canonicalValues, hvalue.1, hcanonical]
      · rw [valuesFunctions, hvalue.2, hfunctions]
        rfl

theorem plain_array {values : List Value} (h : ∀ value ∈ values, Plain value) :
    Plain (.array values) :=
  ⟨congrArg Value.array (plain_all h).1, (plain_all h).2⟩

theorem plain_dictValue {fields : List (String × Value)} (h : ∀ field ∈ fields, Plain field.2) :
    Plain (dictValue fields) := by
  have hvalues : ∀ value ∈ fields.map (·.2), Plain value := by
    intro value hmem
    obtain ⟨field, hfield, rfl⟩ := List.mem_map.mp hmem
    exact h field hfield
  exact ⟨congrArg (Value.dict _) (plain_all hvalues).1, (plain_all hvalues).2⟩

theorem plain_number {text : List Char} {value : Value} (h : number text = .ok value) :
    Plain value := by
  unfold number at h
  split at h
  · split at h
    · cases h
    · split at h
      · obtain rfl := Except.ok.inj h
        exact ⟨rfl, rfl⟩
      · cases h
  · split at h
    · cases h
    · obtain rfl := Except.ok.inj h
      exact ⟨rfl, rfl⟩

theorem plain_noneValue : Plain noneValue := ⟨rfl, rfl⟩

theorem plain_trueValue : Plain trueValue := ⟨rfl, rfl⟩

theorem plain_falseValue : Plain falseValue := ⟨rfl, rfl⟩

mutual

theorem Tree.plain_value : ∀ tree : Tree, Plain tree.value
  | .null => plain_noneValue
  | .true => plain_trueValue
  | .false => plain_falseValue
  | .int _ => ⟨rfl, rfl⟩
  | .float _ => ⟨rfl, rfl⟩
  | .string _ => ⟨rfl, rfl⟩
  | .array items => plain_array (plain_itemValues items)
  | .object members => plain_dictValue (plain_memberValues members)

theorem plain_itemValues : ∀ items : List Tree, ∀ value ∈ itemValues items, Plain value
  | [] => List.forall_mem_nil _
  | item :: rest => List.forall_mem_cons.mpr ⟨Tree.plain_value item, plain_itemValues rest⟩

theorem plain_memberValues : ∀ members : List (String × Tree),
    ∀ field ∈ memberValues members, Plain field.2
  | [] => List.forall_mem_nil _
  | (_, member) :: rest =>
      List.forall_mem_cons.mpr ⟨Tree.plain_value member, plain_memberValues rest⟩

end

mutual

theorem Tree.plain_reread : ∀ (tree : Tree) {value : Value}, tree.reread = .ok value →
    Plain value
  | .null, _, h => Except.ok.inj h ▸ plain_noneValue
  | .true, _, h => Except.ok.inj h ▸ plain_trueValue
  | .false, _, h => Except.ok.inj h ▸ plain_falseValue
  | .int _, _, h => plain_number h
  | .float _, _, h => plain_number h
  | .string _, _, h => Except.ok.inj h ▸ ⟨rfl, rfl⟩
  | .array items, _, h => by
      obtain ⟨values, hvalues, rfl⟩ := map_eq_ok.mp h
      exact plain_array (plain_rereadItems items hvalues)
  | .object members, _, h => by
      obtain ⟨fields, hfields, rfl⟩ := map_eq_ok.mp h
      exact plain_dictValue
        (plain_rereadMembers members (fun _ hmem => absurd hmem List.not_mem_nil) hfields)

theorem plain_rereadItems : ∀ (items : List Tree) {values : List Value},
    rereadItems items = .ok values → ∀ value ∈ values, Plain value
  | [], _, h => Except.ok.inj h ▸ List.forall_mem_nil _
  | item :: rest, _, h => by
      obtain ⟨value, hvalue, h⟩ := bind_eq_ok.mp h
      obtain ⟨values, hvalues, rfl⟩ := map_eq_ok.mp h
      exact List.forall_mem_cons.mpr
        ⟨Tree.plain_reread item hvalue, plain_rereadItems rest hvalues⟩

theorem plain_rereadMembers : ∀ (members : List (String × Tree))
    {fields result : List (String × Value)}, (∀ field ∈ fields, Plain field.2) →
      rereadMembers fields members = .ok result → ∀ field ∈ result, Plain field.2
  | [], _, _, hfields, h => Except.ok.inj h ▸ hfields
  | (_, member) :: rest, _, _, hfields, h => by
      obtain ⟨-, -, h⟩ := bind_eq_ok.mp h
      obtain ⟨value, hvalue, h⟩ := bind_eq_ok.mp h
      refine plain_rereadMembers rest (fun field hmem => ?_) h
      rcases mem_insertEntry hmem with rfl | hmem
      · exact Tree.plain_reread member hvalue
      · exact hfields field hmem

end

variable {view : HeapView}

theorem EncodesMembers.keys {entries : List (String × RichValue)}
    {members : List (String × Tree)} (h : EncodesMembers view entries members) :
    members.map (·.1) = entries.map (·.1) := by
  induction entries generalizing members with
  | nil =>
      cases h
      rfl
  | cons entry rest ih =>
      cases h with
      | cons _ hrest => exact congrArg (_ :: ·) (ih hrest)

theorem keys_memberValues (members : List (String × Tree)) :
    (memberValues members).map (·.1) = members.map (·.1) := by
  induction members with
  | nil => rfl
  | cons member rest ih => exact congrArg (_ :: ·) ih

mutual

/-- The trees of a well-formed heap are well-formed. -/
theorem Encodes.wellFormed (hview : WellFormed view) {value : RuntimeValue} {tree : Tree}
    (hint : ∀ n, value = .int n → IsI64 n) : Encodes view value tree → tree.WellFormed
  | .int => hint _ rfl
  | .float hfinite => hfinite
  | .none => trivial
  | .true => trivial
  | .false => trivial
  | .shortString _ => trivial
  | .string _ => trivial
  | .array hobject hitems => hitems.wellFormed hview (hview.arrayInts hobject)
  | .dict hobject hshape hentries hmembers => by
      obtain ⟨-, hvalues, hsorted⟩ := hview.entries hobject hshape hentries
      refine ⟨hmembers.keys ▸ hsorted, hmembers.wellFormed hview fun entry hmem => ?_⟩
      exact hview.dictInts hobject entry.2 (hvalues ▸ List.mem_map_of_mem hmem)

theorem EncodesItems.wellFormed (hview : WellFormed view) {values : List RichValue}
    {items : List Tree} (hints : ∀ value ∈ values, ∀ n, value.value = .int n → IsI64 n) :
    EncodesItems view values items → ItemsWellFormed items
  | .nil => trivial
  | .cons hvalue hrest =>
      ⟨hvalue.wellFormed hview (List.forall_mem_cons.mp hints).1,
        hrest.wellFormed hview (List.forall_mem_cons.mp hints).2⟩

theorem EncodesMembers.wellFormed (hview : WellFormed view)
    {entries : List (String × RichValue)} {members : List (String × Tree)}
    (hints : ∀ entry ∈ entries, ∀ n, entry.2.value = .int n → IsI64 n) :
    EncodesMembers view entries members → MembersWellFormed members
  | .nil => trivial
  | .cons hvalue hrest =>
      ⟨hvalue.wellFormed hview (List.forall_mem_cons.mp hints).1,
        hrest.wellFormed hview (List.forall_mem_cons.mp hints).2⟩

end

mutual

/-- A value that encodes a tree denotes the value of the tree. -/
theorem Encodes.denotes (hview : WellFormed view) {value : RuntimeValue} {tree : Tree} :
    Encodes view value tree → view.Denotes False value tree.value
  | .int => .int
  | .float _ => .float
  | .none => .builtinAtom rfl
  | .true => .builtinAtom rfl
  | .false => .builtinAtom rfl
  | .shortString htext => .shortString htext
  | .string hobject => .string hobject
  | .array hobject hitems => .array hobject (hitems.denotes hview)
  | .dict hobject hshape hentries hmembers => by
      obtain ⟨hnames, hvalues, -⟩ := hview.entries hobject hshape hentries
      have hall := hmembers.denotes hview
      rw [hvalues] at hall
      rw [← hmembers.keys, ← keys_memberValues] at hnames
      exact .dict hobject hnames hall

theorem EncodesItems.denotes (hview : WellFormed view) {values : List RichValue}
    {items : List Tree} :
    EncodesItems view values items → view.DenotesAll False values (itemValues items)
  | .nil => .nil
  | .cons hvalue hrest => .cons (hvalue.denotes hview) (hrest.denotes hview)

theorem EncodesMembers.denotes (hview : WellFormed view) {entries : List (String × RichValue)}
    {members : List (String × Tree)} : EncodesMembers view entries members →
      view.DenotesAll False (entries.map (·.2)) ((memberValues members).map (·.2))
  | .nil => .nil
  | .cons hvalue hrest => .cons (hvalue.denotes hview) (hrest.denotes hview)

end

end Values

end Telora.Json
