import ReadonlyLint.Path

/-!
A directory as data: the files below it with their contents, and the links to them. A directory inside
it exists when a file or a link lies below it. What is outside is only known to be directories: no
file there can be reached.
-/
namespace ReadonlyLint

/-- A directory: the files below it, each under the names that lead to it, and the links, each with
the place that it leads to in the end. So two paths may lead to one file. -/
structure Directory where
  files : List (List String × ByteArray) := []
  links : List (List String × List String) := []
  deriving Inhabited

/-- Why a path cannot be read or written. -/
inductive AccessError where
  | missing
  | notDirectory
  | isDirectory
  | nameTooLong
  | notText
  deriving DecidableEq, Inhabited

def AccessError.message : AccessError → String
  | .missing => "No such file or directory (os error 2)"
  | .notDirectory => "Not a directory (os error 20)"
  | .isDirectory => "Is a directory (os error 21)"
  | .nameTooLong => "File name too long (os error 36)"
  | .notText => "stream did not contain valid UTF-8"

namespace Directory

/-- The contents of a file. -/
def content? (d : Directory) (place : List String) : Option ByteArray := d.files.lookup place

def isFile (d : Directory) (place : List String) : Bool := (d.content? place).isSome

/-- The places of the files and of the links. -/
def entries (d : Directory) : List (List String) := d.files.map (·.1) ++ d.links.map (·.1)

/-- Whether this is the directory itself or one on the way to a file or a link. -/
def isDirectory (d : Directory) (place : List String) : Bool :=
  place.isEmpty || d.entries.any fun entry => place.length < entry.length && place.isPrefixOf entry

/-- Where a place leads to: if it is a link, to the place that it is for. -/
def resolve (d : Directory) (place : List String) : List String :=
  (d.links.lookup place).getD place

/-- Gives a file new contents, or adds it. -/
def put (d : Directory) (place : List String) (content : ByteArray) : Directory :=
  if d.isFile place then
    { d with files := d.files.map fun (file, old) => (file, if file = place then content else old) }
  else { d with files := d.files ++ [(place, content)] }

/-! ## Paths -/

/-- What following the parts of a path from a directory outside ends in: another one, or a name that
nothing is known of. -/
def outside : List String → AccessError
  | [] => .isDirectory
  | part :: rest =>
    if Path.isVoid part || part = ".." then outside rest
    else if Path.isLongName part then .nameTooLong
    else .missing

/-- Follows the parts of a path from a place. -/
def follow (d : Directory) : List String → List String → Except AccessError (List String)
  | [], place => .ok place
  | part :: rest, place =>
    if !d.isDirectory place then .error .notDirectory
    else if Path.isVoid part then d.follow rest place
    else if part = ".." then
      if place.isEmpty then .error (outside rest) else d.follow rest place.dropLast
    else if Path.isLongName part then .error .nameTooLong
    else
      let next := d.resolve (place ++ [part])
      if d.isFile next || d.isDirectory next then d.follow rest next else .error .missing

/-- The place of the file or directory that a path leads to. -/
def locate (d : Directory) (path : String) : Except AccessError (List String) :=
  if path = "" then .error .missing
  else if Path.isTooLong path then .error .nameTooLong
  else if Path.start path = "/" then .error (outside (Path.parts path))
  else d.follow (Path.parts path) []

/-- Whether a path leads to anything. -/
def has (d : Directory) (path : String) : Bool := (d.locate path).isOk

/-- The text of the file that a path leads to. -/
def read (d : Directory) (path : String) : Except AccessError String := do
  let place ← d.locate path
  match d.content? place with
  | none => .error .isDirectory
  | some content => ((String.fromUTF8? content).map .ok).getD (.error .notText)

/-- The place that a text for the path goes to: the file that is there, or a new one in a directory
that is there. A link that leads nowhere leads to the new file. -/
def target (d : Directory) (path : String) : Except AccessError (List String) :=
  match d.locate path with
  | .ok place => if d.isFile place then .ok place else .error .isDirectory
  | .error .missing => do
    let parts := Path.parts path
    let name := parts.getLastD ""
    if path = "" || Path.start path = "/" || name = ".." then .error .missing
    let place ← d.follow parts.dropLast []
    if !d.isDirectory place then .error .notDirectory
    else if Path.isVoid name then .error .isDirectory
    else
      let place := d.resolve (place ++ [name])
      if d.isDirectory place.dropLast then .ok place else .error .missing
  | .error e => .error e

/-- Writes a text to the file that a path leads to. -/
def write (d : Directory) (path text : String) : Except AccessError Directory := do
  pure (d.put (← d.target path) text.toUTF8)

end Directory

end ReadonlyLint
