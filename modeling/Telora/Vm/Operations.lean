import Telora.Vm.Registers
import Telora.Library.Entries
import Mathlib.Data.List.Sort

/-!
# The instructions that stay in their frame

Every instruction except calls, jumps and returns: it reads registers, may charge
and allocate, and writes one register. How a constant, a text or a prototype is
found is a parameter, so the same definition gives the meaning of linked code and
of the register code before linking.
-/

namespace Telora.Vm

open Bytecode Library

/-- How the operands of an instruction are found. -/
structure Links (K T P : Type) where
  value : HeapView → K → Except RuntimeError RichValue
  text : HeapView → T → Except RuntimeError InternId
  prototype : HeapView → P → Except RuntimeError RuntimePrototype

/-- The links of the running function's prototype object. -/
def prototypeLinks (site : Site) (prototype : Handle) :
    Links ValueLinkId TextLinkId ProtoLinkId where
  value view index := do
    match (← site.heap (view.bytecode prototype)).values[index]? with
    | some value => return value
    | none => throw (site.error .invalidBytecode s!"value link {index} is out of bounds")
  text view index := do
    match (← site.heap (view.bytecode prototype)).text[index]? with
    | some id => return id
    | none => throw (site.error .invalidBytecode s!"text link {index} is out of bounds")
  prototype view index := do
    match (← site.heap (view.bytecode prototype)).prototypes[index]? with
    | some linked => return linked
    | none => throw (site.error .invalidBytecode s!"prototype link {index} is out of bounds")

inductive NumericOperation where
  | add | subtract | multiply | divide
  deriving DecidableEq, Repr

def i64Min : Int := -9223372036854775808

def i64Max : Int := 9223372036854775807

/-- An `i64` result, when it is in range. -/
def checkedInt (value : Int) : Option Int :=
  if i64Min ≤ value ∧ value ≤ i64Max then some value else none

def NumericOperation.ints (operation : NumericOperation) (left right : Int) : Int :=
  match operation with
  | .add => left + right
  | .subtract => left - right
  | .multiply => left * right
  | .divide => left.tdiv right

def NumericOperation.floats (operation : NumericOperation) (left right : F64) : F64 :=
  match operation with
  | .add => left.add right
  | .subtract => left.sub right
  | .multiply => left.mul right
  | .divide => left.div right

section Readings

variable (site : Site) (view : HeapView)

def numericBinary (operation : NumericOperation) (left right : RichValue) :
    Except RuntimeError RichValue :=
  match left.value, right.value with
  | .int l, .int r =>
      if operation = .divide ∧ r = 0 then
        throw (site.error .divisionByZero "integer division by zero")
      else
        match checkedInt (operation.ints l r) with
        | some value => return .unknown (.int value)
        | none => throw (site.error .integerOverflow "integer arithmetic overflowed")
  | .float l, .float r => return .unknown (.float (operation.floats l r))
  | _, _ => throw (site.numericTypeError left right view)

def negated (input : RichValue) : Except RuntimeError RuntimeValue :=
  match input.value with
  | .int value =>
      match checkedInt (-value) with
      | some value => return .int value
      | none => throw (site.error .integerOverflow "integer negation overflowed")
  | .float value => return .float value.neg
  | _ => throw (site.typeError "numeric value" input view)

def lessThan (left right : RichValue) : Except RuntimeError Bool :=
  match left.value, right.value with
  | .int left, .int right => return left < right
  | .float left, .float right => return left.lt right
  | _, _ => throw (site.numericTypeError left right view)

def upLinkHandle (link : RichValue) (message : String) : Except RuntimeError Handle :=
  match link.value with
  | .upLink handle => return handle
  | _ => throw (site.error .invalidBytecode message)

def arrayItems (message : String) (value : RichValue) : Except RuntimeError (List RichValue) :=
  match value.value with
  | .array handle => site.heap (view.sequence handle false)
  | _ => throw (site.error .typeMismatch message)

/-- The text that an interpolated value stands for. -/
def interpolated (value : RichValue) : Except RuntimeError String := do
  match value.value with
  | .int value => return toString value
  | _ =>
      match ← site.heap (view.stringText value.value) with
      | some text => return text
      | none =>
          match ← site.heap (view.atomText value.value) with
          | some text => return text
          | none =>
              throw (site.shallowTypeError "String, Int, or Atom interpolation value" value)

/-- The fields of a dict as texts with their values. -/
def dictEntries (refusal : RuntimeError) (value : RichValue) :
    Except RuntimeError (List (String × RichValue)) :=
  match value.value with
  | .dict handle => do
      let (fields, values) ← site.heap (view.dictFieldParts handle)
      (fields.zip values).mapM fun entry => do
        return (← site.heap (view.text entry.1), entry.2)
  | _ => throw refusal

/-- Later dicts overwrite the fields of earlier ones. -/
def mergedEntries (dicts : List RichValue) : Except RuntimeError (List (String × RichValue)) :=
  let refusal := site.error .typeMismatch "Dict spread operand must be a Dict"
  dicts.foldlM (fun merged dict => do
    return (← dictEntries site view refusal dict).foldl
      (fun merged entry => insertEntry entry.1 entry.2 merged) merged) []

/-- The fields of a dict literal in order of their texts, refused when two agree. -/
def sortedFields (entries : List (InternId × RichValue)) :
    Except RuntimeError (List (InternId × RichValue)) :=
  let sorted := entries.insertionSort fun left right =>
    view.fieldText left.1 ≤ view.fieldText right.1
  if (sorted.zip sorted.tail).any fun pair =>
      (view.text pair.1.1).toOption = (view.text pair.2.1).toOption then
    throw (site.error .invalidBytecode "Dict contains a duplicate field")
  else
    return sorted

def fieldOf (dict : RichValue) (field : InternId) : Except RuntimeError RichValue :=
  match dict.value with
  | .dict handle => do
      match ← site.heap (view.dictGet handle field) with
      | some value => return value
      | none =>
          let name := match view.text field with
            | .ok text => text
            | .error _ => "<invalid>"
          throw (site.error .missingField ("Dict has no field " ++ name.quote))
  | _ => throw (site.typeError "Dict" dict view)

def fieldPresent (value : RichValue) (field : InternId) : Except RuntimeError Bool :=
  match value.value with
  | .dict handle => return (← site.heap (view.dictGet handle field)).isSome
  | _ => return false

def isDict (value : RichValue) : Bool :=
  match value.value with
  | .dict _ => true
  | _ => false

/-- A tuple that cannot be read has no length. -/
def tupleHasLength (value : RichValue) (length : Nat) : Bool :=
  match value.value with
  | .tuple handle =>
      match view.sequence handle true with
      | .ok items => items.length == length
      | .error _ => false
  | _ => false

def tupleItem (tuple : RichValue) (index : Nat) : Except RuntimeError RichValue :=
  match tuple.value with
  | .tuple handle => do
      match (← site.heap (view.sequence handle true))[index]? with
      | some value => return value
      | none => throw (site.error .invalidBytecode s!"tuple index {index} is out of bounds")
  | _ => throw (site.typeError "Tuple" tuple view)

def tagMatches (value expected : RichValue) : Except RuntimeError Bool :=
  match value.value with
  | .tagged handle => do
      let (actual, _) ← site.heap (view.tagged handle)
      site.heap (view.valuesEqual actual expected)
  | _ => return false

def taggedPayload (tagged : RichValue) : Except RuntimeError RichValue :=
  match tagged.value with
  | .tagged handle => do
      let (_, payload) ← site.heap (view.tagged handle)
      return payload
  | _ => throw (site.typeError "Tagged" tagged view)

/-- The text of a panic message. -/
def panicText (message : RichValue) : Except RuntimeError String :=
  match message.value with
  | .shortString id => site.heap (view.text id)
  | .string handle => do
      match ← site.heap (view.object handle) with
      | .string value => return value
      | _ => throw (site.typeError "String" message view)
  | _ => throw (site.typeError "String" message view)

/-- The error that a raised blame record becomes. -/
def raisedError (structured : RichValue) : Except RuntimeError RuntimeError :=
  match structured.value with
  | .dict handle => do
      let fields ← site.heap (view.dictFields handle)
      if fields ≠ ["data", "message", "rule"] then
        throw (site.typeError "BlameError" structured view)
      else
        let field (name : String) : Except RuntimeError RichValue := do
          match ← site.heap (view.dictGetText handle name) with
          | some value => return value
          | none => throw (site.error .invalidBytecode ("BlameError is missing " ++ name))
        let data ← field "data"
        let message ← field "message"
        let rule ← field "rule"
        match ← site.heap (view.stringText message.value) with
        | some text => return (site.error .raisedBlame text).setLocations data.loc rule.loc
        | none => throw (site.typeError "String" message view)
  | _ => throw (site.typeError "BlameError" structured view)

end Readings

section Instructions

variable (env : Environment) (site : Site) (window : Window)

/-- Write a value made by the instruction. -/
def produce (dst : Register) (value : RuntimeValue) : Exec Unit :=
  writeRegister site window dst (.new value site.location)

def numericInstruction (operation : NumericOperation) (left right : Register) :
    Exec RichValue := do
  let left ← readRegister site window left
  let right ← readRegister site window right
  look env fun view => numericBinary site view operation left right

def makeUpLink (dst : Register) : Exec Unit := do
  chargeValues site env 1
  writeRegister site window dst (← allocateAt site (.upLink none) .upLink)

def readUpLink (dst link : Register) : Exec Unit := do
  let handle ← upLinkHandle site (← readRegister site window link)
    "up-link read operand is not an up-link"
  match ← look env fun view => site.heap (view.upLink handle) with
  | some value => writeRegister site window dst value
  | none => throw (site.error .uninitializedDefinition
      "definition was read before initialization")

def initializeUpLink (link src : Register) : Exec Unit := do
  let handle ← upLinkHandle site (← readRegister site window link)
    "up-link initialization operand is not an up-link"
  match ← look env fun view => site.heap (view.upLink handle) with
  | some _ => throw (site.error .duplicateDefinition
      "definition was initialized more than once")
  | none =>
      let value ← readRegister site window src
      let store ← get
      let current ← site.heap (store.current.initializeUpLink handle value)
      onWork fun _ => ((), current)

def assertUpLinkReady (link : Register) : Exec Unit := do
  let handle ← upLinkHandle site (← readRegister site window link)
    "up-link assertion operand is not an up-link"
  match ← look env fun view => site.heap (view.upLink handle) with
  | some _ => return
  | none => throw (site.error .uninitializedDefinition
      "declaration was not initialized before block completion")

def assertFunctionArity (value : Register) (arity : Nat) : Exec Unit := do
  match (← readRegister site window value).value with
  | .func handle =>
      let actual ← look env fun view => site.heap (view.functionArity handle)
      if actual ≠ arity then
        throw (site.error .typeMismatch
          s!"definition must accept {arity} arguments, got {actual}")
  | _ => throw (site.error .typeMismatch
      s!"definition must be a function accepting {arity} arguments")

def makeSequence (dst : Register) (items : List Register) (object : List RichValue → Object)
    (make : Handle → RuntimeValue) : Exec Unit := do
  let values ← readMany site window items
  chargeValues site env values.length
  writeRegister site window dst (← allocateAt site (object values) make)

def concatArrays (dst : Register) (arrays : List Register) : Exec Unit := do
  let arrays ← readMany site window arrays
  let values ← look env fun view =>
    arrays.mapM (arrayItems site view "array spread operand must be an Array")
  let values := values.flatten
  chargeValues site env values.length
  writeRegister site window dst (← allocateAt site (.array values) .array)

def interpolateString (dst : Register) (parts : List Register) : Exec Unit := do
  let values ← readMany site window parts
  let texts ← look env fun view => values.mapM (interpolated site view)
  chargeAllocation site (texts.map (·.utf8ByteSize)).sum
  let output ← onWork (·.string (some env.background) (String.join texts))
  produce site window dst output

/-- Charge and allocate a dict of the given shape. -/
def allocateDict (dst : Register) (texts : List String) (fields : Heap → List InternId × Heap)
    (values : List RichValue) : Exec Unit := do
  let bytes := do
    let fieldBytes ← checkedSum (texts.map (·.utf8ByteSize))
    let valueBytes ← checkedMul values.length env.valueSize
    checkedAdd fieldBytes valueBytes
  chargeChecked site bytes "Dict allocation size overflowed"
  let fields ← onWork fields
  let shape ← onWork (·.internShape fields)
  writeRegister site window dst (← allocateAt site (.dict shape values) .dict)

def makeDict {T : Type} (text : HeapView → T → Except RuntimeError InternId) (dst : Register)
    (fields : List (T × Register)) : Exec Unit := do
  let entries ← fields.mapM fun field => do
    let id ← look env fun view => text view field.1
    return (id, ← readRegister site window field.2)
  let sorted ← look env fun view => sortedFields site view entries
  let texts ← look env fun view => sorted.mapM fun entry => site.heap (view.text entry.1)
  allocateDict env site window dst texts (fun heap => (sorted.map (·.1), heap))
    (sorted.map (·.2))

/-- Intern the field names one after the other. -/
def internAll : List String → Heap → List InternId × Heap
  | [], heap => ([], heap)
  | text :: rest, heap =>
      let (id, heap) := heap.intern text
      let (ids, heap) := internAll rest heap
      (id :: ids, heap)

def mergeDicts (dst : Register) (dicts : List Register) : Exec Unit := do
  let dicts ← readMany site window dicts
  let merged ← look env fun view => mergedEntries site view dicts
  allocateDict env site window dst (merged.map (·.1)) (internAll (merged.map (·.1)))
    (merged.map (·.2))

def makeClosure (prototype : HeapView → Except RuntimeError RuntimePrototype) (dst : Register)
    (captures : List Register) : Exec Unit := do
  let prototype ← look env prototype
  let captures ← readMany site window captures
  chargeValues site env captures.length
  let identity ← freshIdentity
  writeRegister site window dst (← allocateAt site (.closure identity prototype captures) .func)

/-- Read a register, compute from it in the view, and write the result. -/
def transfer (dst src : Register) (f : HeapView → RichValue → Except RuntimeError RichValue) :
    Exec Unit := do
  let value ← readRegister site window src
  let result ← look env fun view => f view value
  writeRegister site window dst result

/-- An instruction that stays in its frame. The instructions that leave it are not
performed here. -/
def execute {K T P L : Type} (links : Links K T P) : Instr Register K T P L → Exec Unit
  | .loadConst dst constant => do
      let value ← look env fun view => links.value view constant
      writeRegister site window dst (value.withLoc (value.loc <|> site.location))
  | .move dst src => do
      writeRegister site window dst (← readRegister site window src)
  | .makeUpLink dst => makeUpLink env site window dst
  | .readUpLink dst link => readUpLink env site window dst link
  | .initializeUpLink link src => initializeUpLink env site window link src
  | .assertUpLinkReady link => assertUpLinkReady env site window link
  | .assertFunctionArity value arity => assertFunctionArity env site window value arity
  | .add dst left right => do
      let value ← numericInstruction env site window .add left right
      writeRegister site window dst (value.withLoc site.location)
  | .subtract dst left right => do
      let value ← numericInstruction env site window .subtract left right
      writeRegister site window dst (value.withLoc site.location)
  | .multiply dst left right => do
      let value ← numericInstruction env site window .multiply left right
      writeRegister site window dst value
  | .divide dst left right => do
      let value ← numericInstruction env site window .divide left right
      writeRegister site window dst value
  | .negate dst src => transfer env site window dst src fun view input => do
      return .new (← negated site view input) site.location
  | .equal dst left right => do
      let left ← readRegister site window left
      let right ← readRegister site window right
      let equal ← look env fun view => site.heap (view.valuesEqual left right)
      writeRegister site window dst ((runtimeBool equal).withLoc site.location)
  | .lessThan dst left right => do
      let left ← readRegister site window left
      let right ← readRegister site window right
      let less ← look env fun view => lessThan site view left right
      writeRegister site window dst ((runtimeBool less).withLoc site.location)
  | .makeArray dst items => makeSequence env site window dst items .array .array
  | .concatArrays dst arrays => concatArrays env site window dst arrays
  | .makeTuple dst items => makeSequence env site window dst items .tuple .tuple
  | .interpolateString dst parts => interpolateString env site window dst parts
  | .makeDict dst fields => makeDict env site window links.text dst fields
  | .mergeDicts dst dicts => mergeDicts env site window dst dicts
  | .getField dst dict field => do
      let field ← look env fun view => links.text view field
      transfer env site window dst dict fun view dict => fieldOf site view dict field
  | .fieldExists dst value field => do
      let field ← look env fun view => links.text view field
      transfer env site window dst value fun view value =>
        return runtimeBool (← fieldPresent site view value field)
  | .isDict dst value => transfer env site window dst value fun _ value =>
      return runtimeBool (isDict value)
  | .tupleLengthEquals dst value length => transfer env site window dst value fun view value =>
      return runtimeBool (tupleHasLength view value length)
  | .getTuple dst tuple index => transfer env site window dst tuple fun view tuple =>
      tupleItem site view tuple index
  | .taggedTagEquals dst value tag => do
      let value ← readRegister site window value
      let expected ← readRegister site window tag
      let matched ← look env fun view => tagMatches site view value expected
      writeRegister site window dst (runtimeBool matched)
  | .getTaggedPayload dst value => transfer env site window dst value fun view value =>
      taggedPayload site view value
  | .makeClosure dst function captures =>
      makeClosure env site window (fun view => links.prototype view function) dst captures
  | .fail message => throw (site.error .noPatternMatched message)
  | .panic message => do
      let message ← readRegister site window message
      let text ← look env fun view => panicText site view message
      throw (site.error .panic text)
  | .raise error => do
      let structured ← readRegister site window error
      throw (← look env fun view => raisedError site view structured)
  | .call _ _ | .tailCall _ _ | .jump _ | .jumpIfFalse _ _ | .ret _ => return

end Instructions

namespace Keeps

variable (env : Environment) (site : Site) (window : Window)

theorem transfer (dst src : Register) (f : HeapView → RichValue → Except RuntimeError RichValue) :
    Keeps (Vm.transfer env site window dst src f) := by
  apply bind (readRegister site window src)
  intro value
  apply bind (look env _)
  intro result
  exact writeRegister site window dst result

theorem numericInstruction (operation : NumericOperation) (left right : Register) :
    Keeps (Vm.numericInstruction env site window operation left right) := by
  apply bind (readRegister site window left)
  intro left
  apply bind (readRegister site window right)
  intro right
  exact look env _

theorem makeUpLink (dst : Register) : Keeps (Vm.makeUpLink env site window dst) := by
  apply bind (chargeValues site env 1)
  intro _
  apply bind (allocateAt site _ _)
  intro link
  exact writeRegister site window dst link

theorem readUpLink (dst link : Register) : Keeps (Vm.readUpLink env site window dst link) := by
  apply bind (readRegister site window link)
  intro value
  apply bind (lift _)
  intro handle
  apply bind (look env _)
  rintro (_ | value)
  · exact throw _
  · exact writeRegister site window dst value

theorem initializeUpLink (link src : Register) :
    Keeps (Vm.initializeUpLink env site window link src) := by
  apply bind (readRegister site window link)
  intro value
  apply bind (lift _)
  intro handle
  apply bind (look env _)
  rintro (_ | value)
  · apply bind (readRegister site window src)
    intro value
    apply bind get
    intro store
    apply bind (lift _)
    intro current
    exact onWork _
  · exact throw _

theorem assertUpLinkReady (link : Register) :
    Keeps (Vm.assertUpLinkReady env site window link) := by
  apply bind (readRegister site window link)
  intro value
  apply bind (lift _)
  intro handle
  apply bind (look env _)
  rintro (_ | value)
  · exact throw _
  · exact pure _

theorem assertFunctionArity (value : Register) (arity : Nat) :
    Keeps (Vm.assertFunctionArity env site window value arity) := by
  apply bind (readRegister site window value)
  intro value
  split
  · apply bind (look env _)
    intro actual
    split
    · exact throw _
    · exact pure _
  · exact throw _

theorem makeSequence (dst : Register) (items : List Register) (object : List RichValue → Object)
    (make : Handle → RuntimeValue) :
    Keeps (Vm.makeSequence env site window dst items object make) := by
  apply bind (readMany site window items)
  intro values
  apply bind (chargeValues site env _)
  intro _
  apply bind (allocateAt site _ _)
  intro value
  exact writeRegister site window dst value

theorem concatArrays (dst : Register) (arrays : List Register) :
    Keeps (Vm.concatArrays env site window dst arrays) := by
  apply bind (readMany site window arrays)
  intro arrays
  apply bind (look env _)
  intro values
  apply bind (chargeValues site env _)
  intro _
  apply bind (allocateAt site _ _)
  intro value
  exact writeRegister site window dst value

theorem interpolateString (dst : Register) (parts : List Register) :
    Keeps (Vm.interpolateString env site window dst parts) := by
  apply bind (readMany site window parts)
  intro values
  apply bind (look env _)
  intro texts
  apply bind (chargeAllocation site _)
  intro _
  apply bind (onWork _)
  intro output
  exact writeRegister site window dst _

theorem allocateDict (dst : Register) (texts : List String)
    (fields : Heap → List InternId × Heap) (values : List RichValue) :
    Keeps (Vm.allocateDict env site window dst texts fields values) := by
  apply bind (chargeChecked site _ _)
  intro _
  apply bind (onWork _)
  intro ids
  apply bind (onWork _)
  intro shape
  apply bind (allocateAt site _ _)
  intro dict
  exact writeRegister site window dst dict

theorem makeDict {T : Type} (text : HeapView → T → Except RuntimeError InternId) (dst : Register)
    (fields : List (T × Register)) : Keeps (Vm.makeDict env site window text dst fields) := by
  have hfield : ∀ field : T × Register, Keeps (do
      let id ← Vm.look env fun view => text view field.1
      return (id, ← Vm.readRegister site window field.2)) := by
    intro field
    apply bind (look env _)
    intro id
    apply bind (readRegister site window field.2)
    intro value
    exact pure _
  apply bind (mapM hfield fields)
  intro entries
  apply bind (look env _)
  intro sorted
  apply bind (look env _)
  intro texts
  exact allocateDict env site window dst texts _ _

theorem mergeDicts (dst : Register) (dicts : List Register) :
    Keeps (Vm.mergeDicts env site window dst dicts) := by
  apply bind (readMany site window dicts)
  intro dicts
  apply bind (look env _)
  intro merged
  exact allocateDict env site window dst _ _ _

theorem makeClosure (prototype : HeapView → Except RuntimeError RuntimePrototype)
    (dst : Register) (captures : List Register) :
    Keeps (Vm.makeClosure env site window prototype dst captures) := by
  apply bind (look env _)
  intro prototype
  apply bind (readMany site window captures)
  intro captures
  apply bind (chargeValues site env _)
  intro _
  apply bind freshIdentity
  intro identity
  apply bind (allocateAt site _ _)
  intro closure
  exact writeRegister site window dst closure

/-- Two registers are read, a result is computed in the view, and it is written. -/
theorem compare {α : Type} (dst left right : Register)
    (read : RichValue → RichValue → HeapView → Except RuntimeError α) (value : α → RichValue) :
    Keeps (do
      let left ← Vm.readRegister site window left
      let right ← Vm.readRegister site window right
      let result ← Vm.look env fun view => read left right view
      Vm.writeRegister site window dst (value result)) := by
  apply bind (readRegister site window left)
  intro left
  apply bind (readRegister site window right)
  intro right
  apply bind (look env _)
  intro result
  exact writeRegister site window dst _

/-- No instruction that stays in its frame changes the stack length, the quota or
the fuel. -/
theorem execute {K T P L : Type} (links : Links K T P) (instruction : Instr Register K T P L) :
    Keeps (Vm.execute env site window links instruction) := by
  cases instruction with
  | loadConst dst constant =>
      exact bind (look env _) fun value => writeRegister site window dst _
  | move dst src =>
      exact bind (readRegister site window src) fun value => writeRegister site window dst value
  | makeUpLink dst => exact makeUpLink env site window dst
  | readUpLink dst link => exact readUpLink env site window dst link
  | initializeUpLink link src => exact initializeUpLink env site window link src
  | assertUpLinkReady link => exact assertUpLinkReady env site window link
  | assertFunctionArity value arity => exact assertFunctionArity env site window value arity
  | add dst left right | subtract dst left right | multiply dst left right
  | divide dst left right =>
      exact bind (numericInstruction env site window _ left right) fun value =>
        writeRegister site window dst _
  | negate dst src | isDict dst src | tupleLengthEquals dst src | getTuple dst src
  | getTaggedPayload dst src => exact transfer env site window dst src _
  | equal dst left right => exact compare env site window dst left right _ _
  | lessThan dst left right => exact compare env site window dst left right _ _
  | taggedTagEquals dst value tag => exact compare env site window dst value tag _ _
  | makeArray dst items | makeTuple dst items =>
      exact makeSequence env site window dst items _ _
  | concatArrays dst arrays => exact concatArrays env site window dst arrays
  | interpolateString dst parts => exact interpolateString env site window dst parts
  | makeDict dst fields => exact makeDict env site window links.text dst fields
  | mergeDicts dst dicts => exact mergeDicts env site window dst dicts
  | getField dst src | fieldExists dst src =>
      exact bind (look env _) fun field => transfer env site window dst src _
  | makeClosure dst function captures => exact makeClosure env site window _ dst captures
  | fail message => exact throw _
  | panic message =>
      exact bind (readRegister site window message) fun message =>
        bind (look env _) fun text => throw _
  | raise error =>
      exact bind (readRegister site window error) fun structured =>
        bind (look env _) fun error => throw _
  | call | tailCall | jump | jumpIfFalse | ret => exact pure _

end Keeps

end Telora.Vm
