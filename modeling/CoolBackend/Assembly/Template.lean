/-!
A template is fixed text with holes. Each hole names an attribute, and an attribute has a list of
texts. An attribute that was never given is the empty list.
-/
namespace CoolBackend.Assembly

def joinNonEmpty (separator : String) (texts : List String) : String :=
  separator.intercalate (texts.filter (· ≠ ""))

def joinLines (texts : List String) : String := joinNonEmpty "\n" texts

def joinSpaced (texts : List String) : String := joinNonEmpty "\n\n" texts

/-- A piece of a template. `ifBound` asks whether an attribute has a text at all, even an empty
one. -/
inductive Part where
  | text (s : String)
  | hole (key : String)
  | spaced (key : String)
  | ifBound (key : String) (yes no : List Part)

abbrev Template := List Part

mutual

def Part.render (values : String → List String) : Part → String
  | .text s => s
  | .hole key => joinLines (values key)
  | .spaced key => joinSpaced (values key)
  | .ifBound key yes no =>
    if (values key).isEmpty then Template.render values no else Template.render values yes

def Template.render (values : String → List String) : List Part → String
  | [] => ""
  | part :: rest => part.render values ++ Template.render values rest

end

structure Group where
  name : String
  templates : List (String × Template)

def Group.find? (group : Group) (name : String) : Option Template :=
  group.templates.lookup name

def Group.has (group : Group) (name : String) : Bool := (group.find? name).isSome

end CoolBackend.Assembly
