import CoolBackend.Builtin
import CoolBackend.Verify.Diagnostic

/-!
Classes by name, with the names of their features. The built-in classes are known from the start; of
the classes of a program those join that have a name of their own.
-/
namespace CoolBackend.Verify

structure KnownClass where
  name : String
  parent : String
  attributes : List String
  methods : List String

def KnownClass.ofBuiltin (b : Builtin) : KnownClass :=
  { name := b.name, parent := b.parent, attributes := b.attributes.map (·.name)
    methods := b.methods }

def KnownClass.ofDecl (c : ClassDecl) : KnownClass :=
  { name := c.name
    parent := c.parentName
    attributes := c.attributes.map (·.1.name)
    methods := c.methods.map (·.name) }

abbrev Hierarchy := List KnownClass

namespace Hierarchy

def ofDecls (decls : List ClassDecl) : Hierarchy :=
  Builtin.all.map KnownClass.ofBuiltin ++ decls.map KnownClass.ofDecl

def find? (h : Hierarchy) (name : String) : Option KnownClass := List.find? (·.name = name) h

def defines (h : Hierarchy) (name : String) : Bool := (h.find? name).isSome

def chainFrom (h : Hierarchy) : Nat → String → List KnownClass
  | 0, _ => []
  | fuel + 1, name =>
    match h.find? name with
    | none => []
    | some c => c :: chainFrom h fuel c.parent

def chain (h : Hierarchy) (name : String) : List KnownClass := h.chainFrom h.length name

def hasAttribute (h : Hierarchy) (className name : String) : Bool :=
  (h.chain className).any (·.attributes.contains name)

def hasMethod (h : Hierarchy) (className name : String) : Bool :=
  (h.chain className).any (·.methods.contains name)

def conforms (h : Hierarchy) (sub className : String) : Bool :=
  (h.chain sub).any (·.name = className)

/-- Whether parents lead from a name to one that was seen. Each step sees one more class, so the
steps that are given need not be more than the classes. -/
def comesBack (h : Hierarchy) : Nat → List String → String → Bool
  | 0, _, _ => false
  | steps + 1, seen, name =>
    if name = "" then false
    else if seen.contains name then true
    else match h.find? name with
      | none => false
      | some c => h.comesBack steps (name :: seen) c.parent

end Hierarchy

/-- Takes the classes of a program in order, after those in `known`. A class whose name is reserved
or taken is reported and left out. -/
def enroll : List ClassDecl → List ClassDecl → List Diagnostic × List ClassDecl
  | [], known => ([], known)
  | c :: rest, known =>
    let refuse (complaint : Complaint) : List Diagnostic × List ClassDecl :=
      let (found, known) := enroll rest known
      (.on c.span complaint :: found, known)
    if c.name = selfType then refuse .namedSelfType
    else if Builtin.isBuiltin c.name then refuse (.redefinesBuiltin c.name)
    else match known.find? (·.name = c.name) with
      | some earlier => refuse (.alreadyDefined c.name earlier.span.start.line)
      | none => enroll rest (known ++ [c])

def checkParent (h : Hierarchy) (c : ClassDecl) : List Diagnostic :=
  if !h.defines c.parentName then [.on c.span (.undefinedParent c.name c.parentName)]
  else if Builtin.isValueClass c.parentName then
    [.on c.span (.forbiddenParent c.name c.parentName)]
  else []

def checkCycle (h : Hierarchy) (c : ClassDecl) : List Diagnostic :=
  if h.comesBack (h.length + 1) [] c.name then [.on c.span (.inheritanceCycle c.name)] else []

/-- Checks the parents of all classes, and then whether any of them comes back. The second part says
whether it is safe to walk the hierarchy. -/
def checkHierarchy (h : Hierarchy) (decls : List ClassDecl) : List Diagnostic × Bool :=
  let parents := decls.flatMap (checkParent h)
  if decls.all (h.defines ·.parentName) then
    let cycles := decls.flatMap (checkCycle h)
    (parents ++ cycles, cycles.isEmpty)
  else (parents, false)

end CoolBackend.Verify
