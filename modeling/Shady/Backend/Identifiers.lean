import Shady.Ir.DataType
import Mathlib.Data.List.Nodup

/-!
# Identifiers of emitted C

Model of `shd_c_legalize_identifier`, `shd_make_unique_name`, `shd_c_get_record_field_name` and of
the places of the backend that make identifiers with them. The text around an identifier is left
out; which types, undefined values and variables a declaration needs is a parameter of the run.
-/

set_option autoImplicit false

namespace Shady.Identifiers

/-- The bytes of a string, each as the character with its code. -/
abbrev Text := List Char

/-! ## Naming -/

/-- `is_legal_identifier_char` -/
def isLegalIdentifierChar (c : Char) : Bool :=
  ('0' ≤ c && c ≤ '9') || ('a' ≤ c && c ≤ 'z') || ('A' ≤ c && c ≤ 'Z') || c == '_'

/-- `shd_c_legalize_identifier` -/
def legalizeIdentifier : Option Text → Text
  | none => "unnamed".toList
  | some src => src.map fun c => if isLegalIdentifierChar c then c else '_'

/-- The digits that `%d` writes. -/
def formatSigned : Int → Text
  | .ofNat k => Nat.toDigits 10 k
  | .negSucc k => '-' :: Nat.toDigits 10 (k + 1)

/-- `%d` of a number that is given in 32 bits. -/
def formatInt (n : Nat) : Text := formatSigned (Int.bmod n (2 ^ 32))

/-- The format `%s_%d`. -/
def suffixed (str : Text) (n : Nat) : Text := str ++ '_' :: formatInt n

/-! ## Modules -/

inductive Dialect
  | c11 | glsl | ispc | cuda
  deriving DecidableEq

structure Config where
  dialect : Dialect
  /-- The execution model is `EmFragment`. -/
  isFragment : Bool

/-- A record type has names for all its members or for none. -/
structure RecordType where
  members : Nat
  names : List Text
  counts : names = [] ∨ names.length = members

/-- `shd_c_get_record_field_name` -/
def getRecordFieldName (t : RecordType) (i : Nat) : Text :=
  match t.names[i]? with
  | none => '_' :: formatInt i
  | some name => name

structure Param where
  name : Option Text
  id : Nat

inductive Declaration
  | globalVariable (name : Text) (addressSpace : AddressSpace) (isBuiltin : Bool)
  | function (name : Text) (params : List Param)
  | constant (name : Text)
  | nominalType (name : Text) (body : RecordType)

/-- `get_declaration_name` -/
def Declaration.name : Declaration → Text
  | globalVariable name _ _ => name
  | function name _ => name
  | constant name => name
  | nominalType name _ => name

def Declaration.params : Declaration → List Param
  | function _ params => params
  | _ => []

/-- A module, with the number of ids that its arena has given out. An id is given out once. -/
structure Module where
  declarations : List Declaration
  ids : Nat
  allocated : ∀ decl ∈ declarations, ∀ param ∈ decl.params, param.id ≤ ids
  distinct : ∀ decl ∈ declarations, (decl.params.map Param.id).Nodup

/-! ## The emitter -/

/-- A name space of a scope of the C text. -/
inductive CScope
  | file
  /-- The tags of structures, which are always written with `struct` in front. -/
  | tags
  /-- The members of `__shady_PrivateGlobals`. -/
  | privateGlobals
  | function (place : Nat)
  /-- The members of a record type, which is named with a number. -/
  | record (number : Nat)
  | nominal (place : Nat)
  deriving DecidableEq

/-- What an identifier stands for. -/
inductive Entity
  | declaration (place : Nat)
  | parameter (index : Nat)
  | generated (number : Nat)
  | member (index : Nat)
  deriving DecidableEq

structure Emission where
  scope : CScope
  entity : Entity
  identifier : Text
  deriving DecidableEq

structure Emitter where
  /-- The ids that the arena has given out. -/
  ids : Nat
  emittedDecls : List Nat
  emitted : List Emission

def Emitter.name (e : Emitter) (scope : CScope) (entity : Entity) (identifier : Text) : Emitter :=
  { e with emitted := e.emitted ++ [⟨scope, entity, identifier⟩] }

/-- `_shd_allocate_node_id` -/
def Emitter.allocateNodeId (e : Emitter) : Nat × Emitter := (e.ids + 1, { e with ids := e.ids + 1 })

/-- `shd_make_unique_name` -/
def Emitter.makeUniqueName (e : Emitter) (str : Text) : Text × Emitter :=
  let (id, e) := e.allocateNodeId
  (suffixed str id, e)

/-- A name that is made for one scope. -/
def Emitter.unique (e : Emitter) (scope : CScope) (str : Text) : Emitter :=
  let (identifier, e) := e.makeUniqueName str
  e.name scope (.generated e.ids) identifier

/-- The loop of `shd_c_emit_nominal_type_body` -/
def Emitter.members (e : Emitter) (scope : CScope) (type : RecordType) : Emitter :=
  (List.range type.members).foldl
    (fun e i => e.name scope (.member i) (getRecordFieldName type i)) e

/-- The parameters of a function, as `shd_c_emit_fn_head` and `shd_c_emit_decl` name them. -/
def Emitter.params (e : Emitter) (place : Nat) (params : List Param) : Emitter :=
  params.zipIdx.foldl
    (fun e (param, i) =>
      e.name (.function place) (.parameter i) (suffixed (legalizeIdentifier param.name) param.id)) e

/-- The global variables that `collect_private_globals_in_struct` takes. -/
def Declaration.isPrivateGlobal : Declaration → Bool
  | globalVariable _ addressSpace _ => addressSpace = .priv
  | _ => false

/-- Where a declaration has its legalized name. A builtin and an output of a fragment shader are
expressions of the target language. -/
def Declaration.scope (config : Config) : Declaration → Option CScope
  | globalVariable _ addressSpace isBuiltin =>
      if isBuiltin then none
      else if addressSpace = .output && config.isFragment then none
      else if addressSpace = .priv && config.dialect = .cuda then some .privateGlobals
      else some .file
  | _ => some .file

/-- What `shd_c_emit_decl` names besides the declaration. In GLSL the body of a nominal type gets no
name of its own. -/
def Emitter.inside (config : Config) (e : Emitter) (place : Nat) : Declaration → Emitter
  | .function _ params => e.params place params
  | .nominalType _ body => if config.dialect = .glsl then e.members (.nominal place) body else e
  | _ => e

/-- `shd_c_emit_decl` -/
def Emitter.emitDecl (config : Config) (m : Module) (e : Emitter) (place : Nat) : Emitter :=
  if place ∈ e.emittedDecls then e
  else match m.declarations[place]? with
    | none => e
    | some decl =>
        let name := legalizeIdentifier (some decl.name)
        let e := { e with emittedDecls := place :: e.emittedDecls }
        match decl.scope config with
        | none => e
        | some scope => (e.name scope (.declaration place) name).inside config place decl

/-- Where a record type is named in `shd_c_emit_type`. -/
def recordScope (config : Config) : CScope := if config.dialect = .c11 then .tags else .file

def arrayScope (config : Config) : CScope := if config.dialect = .glsl then .file else .tags

/-- A record type in `shd_c_emit_type`. -/
def Emitter.emitRecordType (config : Config) (e : Emitter) (type : RecordType) : Emitter :=
  let e := e.unique (recordScope config) "Record".toList
  e.members (.record e.ids) type

/-- The variables that the backend declares in the body of a function. -/
inductive LocalVariable
  | intermediaryPtrValue | composite | result | bitcastSrc | bitcastResult | modified | shuffled
  | leaIntermediaryPtrValue | alloca | ifPhi | matchPhi
  /-- A parameter of the body of a loop. -/
  | loopParam (name : Option Text)
  | loopBreakPhi | packReturn

def LocalVariable.str : LocalVariable → Text
  | intermediaryPtrValue => "intermediary_ptr_value".toList
  | composite => "composite".toList
  | result => []
  | bitcastSrc => "bitcast_src".toList
  | bitcastResult => "bitcast_result".toList
  | modified => "modified".toList
  | shuffled => "shuffled".toList
  | leaIntermediaryPtrValue => "lea_intermediary_ptr_value".toList
  | alloca => "alloca".toList
  | ifPhi => "if_phi".toList
  | matchPhi => "match_phi".toList
  | loopParam name => name.getD "phi".toList
  | loopBreakPhi => "loop_break_phi".toList
  | packReturn => "pack_return".toList

def Emitter.emitLocal (e : Emitter) (place : Nat) (site : LocalVariable) : Emitter :=
  match site with
  | .loopParam none =>
      -- the name that `emit_loop` makes is made unique again
      let (str, e) := e.makeUniqueName site.str
      e.unique (.function place) str
  | site => e.unique (.function place) site.str

/-! ## Runs -/

/-- What the emitter does on the way. -/
inductive Step
  /-- A node is created that is not named with its id. -/
  | createNode
  | emitDecl (place : Nat)
  | recordType (type : RecordType)
  | arrType
  | undef
  /-- A variable in the body of a function. -/
  | localVariable (place : Nat) (site : LocalVariable)

def Emitter.step (config : Config) (m : Module) (e : Emitter) : Step → Emitter
  | .createNode => e.allocateNodeId.2
  | .emitDecl place => e.emitDecl config m place
  | .recordType type => e.emitRecordType config type
  | .arrType => e.unique (arrayScope config) "Array".toList
  | .undef => if config.dialect = .glsl then e else e.unique .file "undef".toList
  | .localVariable place site => e.emitLocal place site

def Emitter.run (config : Config) (m : Module) (e : Emitter) (steps : List Step) : Emitter :=
  steps.foldl (fun e step => e.step config m step) e

/-- `collect_private_globals_in_struct` -/
def Emitter.collectPrivateGlobals (m : Module) (e : Emitter) : Emitter :=
  m.declarations.zipIdx.foldl
    (fun e (decl, place) =>
      if decl.isPrivateGlobal then e.name .privateGlobals (.declaration place) decl.name else e) e

/-- The loop of `shd_emit_c`; the emission of each declaration brings steps of its own. -/
def Module.steps (m : Module) (work : Nat → List Step) : List Step :=
  (List.range m.declarations.length).flatMap fun place => .emitDecl place :: work place

/-- `shd_emit_c` -/
def emitC (config : Config) (m : Module) (work : Nat → List Step) : List Emission :=
  let e : Emitter := ⟨m.ids, [], []⟩
  let e := if config.dialect = .cuda then e.collectPrivateGlobals m else e
  (e.run config m (m.steps work)).emitted

/-- Different things of one scope have different identifiers. -/
def Injective (emitted : List Emission) : Prop :=
  ∀ e ∈ emitted, ∀ e' ∈ emitted,
    e.scope = e'.scope → e.identifier = e'.identifier → e.entity = e'.entity

end Shady.Identifiers
