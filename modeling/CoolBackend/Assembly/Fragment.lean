import CoolBackend.Assembly.Template
import CoolBackend.Text.Quoted

/-!
A fragment names a template and binds values to its attributes; a value may be another fragment.
Rendering goes from the inside out: a nested fragment becomes text before its parent's template
sees it.
-/
namespace CoolBackend.Assembly

/-- What an attribute can be bound to. A value of a type that has no text can be bound, but not
rendered. -/
inductive Value where
  | text (s : String)
  | int (n : Int)
  | fragment (template : String) (bindings : List (String × Value))
  | foreign (typeName : String)

structure Fragment where
  template : String
  bindings : List (String × Value) := []

inductive RenderError where
  | noTemplate (name group : String)
  | unsupported (typeName : String)
  | within (template key : String) (error : RenderError)
  deriving DecidableEq

def RenderError.message : RenderError → String
  | noTemplate name group => s!"asm: no template {Text.quoted name} in group {group}"
  | unsupported typeName => s!"unsupported value {typeName}"
  | within template key error => s!"{template}.{key}: {error.message}"

def keysOf {α : Type} (bindings : List (String × α)) : List String :=
  (bindings.map (·.1)).eraseDups

def valuesOf {α : Type} (bindings : List (String × α)) (key : String) : List α :=
  (bindings.filter (·.1 = key)).map (·.2)

def grouped {α : Type} (bindings : List (String × α)) : List (String × α) :=
  (keysOf bindings).flatMap fun key => bindings.filter (·.1 = key)

/-- The texts of the bindings of a fragment, or the first failure in the order of the keys. -/
def settle (template : String) (rendered : List (String × Except RenderError String)) :
    Except RenderError (List (String × String)) :=
  (grouped rendered).mapM fun
    | (key, .ok text) => .ok (key, text)
    | (key, .error e) => .error (.within template key e)

mutual

def Value.render (group : Group) : Value → Except RenderError String
  | .text s => .ok s
  | .int n => .ok (toString n)
  | .foreign typeName => .error (.unsupported typeName)
  | .fragment name bindings =>
    match group.find? name with
    | none => .error (.noTemplate name group.name)
    | some template => do
      let texts ← settle name (renderBindings group bindings)
      return Template.render (valuesOf texts) template

def renderBindings (group : Group) :
    List (String × Value) → List (String × Except RenderError String)
  | [] => []
  | (key, value) :: rest => (key, value.render group) :: renderBindings group rest

end

namespace Fragment

def toValue (f : Fragment) : Value := .fragment f.template f.bindings

def bind (f : Fragment) (key : String) (value : Value) : Fragment :=
  { f with bindings := f.bindings ++ [(key, value)] }

def bindFragment? (f : Fragment) (key : String) (child : Option Fragment) : Fragment :=
  match child with
  | some child => f.bind key child.toValue
  | none => f

def values (f : Fragment) (key : String) : List Value := valuesOf f.bindings key

def render (group : Group) (f : Fragment) : Except RenderError String := f.toValue.render group

def display (group : Group) (f : Fragment) : String :=
  match f.render group with
  | .ok text => text
  | .error e => "<" ++ e.message ++ ">"

end Fragment

end CoolBackend.Assembly
