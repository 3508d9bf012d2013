import MiniC.Text.Split

/-!
# Files

The files that a command sees. Files are named by paths from the working directory, or from the
root. A path is walked component by component, and every component but the last must name a
directory. Directories are those that hold a file at some depth, and all those on the way from the
working directory to the root; of the latter only the root holds something, the null device.
-/

namespace MiniC

/-- Why a file cannot be read or written. -/
inductive FileFault where
  | notFound
  | isDirectory
  | notDirectory
  | nameTooLong
  | nameInvalid
  | notText
  | other (reason : String)
deriving DecidableEq, Repr

/-- The wording of a file fault. -/
def FileFault.message : FileFault → String
  | .notFound => "No such file or directory (os error 2)"
  | .isDirectory => "Is a directory (os error 21)"
  | .notDirectory => "Not a directory (os error 20)"
  | .nameTooLong => "File name too long (os error 36)"
  | .nameInvalid => "file name contained an unexpected NUL byte"
  | .notText => "stream did not contain valid UTF-8"
  | .other reason => reason

/-- Where a walk begins: a number of levels above the working directory, or at the root. -/
inductive Anchor where
  | above (levels : Nat)
  | root
deriving DecidableEq, Repr

/-- A place in the tree of directories: names to follow from an anchor. -/
structure Location where
  anchor : Anchor
  names : List String
deriving DecidableEq, Repr

namespace Location

/-- The working directory. -/
def working : Location :=
  ⟨.above 0, []⟩

/-- The directory that holds a location; the root holds itself. -/
def parent (l : Location) : Location :=
  match l.names, l.anchor with
  | [], .above n => ⟨.above (n + 1), []⟩
  | [], .root => l
  | names, _ => { l with names := names.dropLast }

/-- The location of a name in a directory. -/
def child (l : Location) (name : String) : Location :=
  { l with names := l.names ++ [name] }

/-- Follows one component of a path. -/
def follow (l : Location) (component : String) : Location :=
  match component with
  | "" | "." => l
  | ".." => l.parent
  | name => l.child name

end Location

/-- A path: where it begins, and its components. -/
structure PathName where
  start : Location
  components : List String

/-- The components of a path as it is written. An empty component stands for a repeated or a final
separator. -/
def PathName.ofText (text : String) : PathName :=
  match (Text.split '/' text.toList).map String.ofList with
  | "" :: component :: components => ⟨⟨.root, []⟩, component :: components⟩
  | components => ⟨.working, components⟩

/-- The number of bytes from which on a path is too long. -/
def PathName.byteLimit : Nat := 4096

/-- The number of bytes from which on a component is too long. -/
def PathName.componentLimit : Nat := 256

/-- The path that a text names: it must not be empty or too long, or hold a NUL character. -/
def PathName.read (text : String) : Except FileFault PathName :=
  if '\x00' ∈ text.toList then .error .nameInvalid
  else if text = "" then .error .notFound
  else if byteLimit ≤ text.utf8ByteSize then .error .nameTooLong
  else .ok (.ofText text)

/-- The place that a path names, taken by itself. -/
def PathName.location (p : PathName) : Location :=
  p.components.foldl Location.follow p.start

/-- The files, by their places. There are no links: a place is one file, and a file has one
place. -/
structure FileSystem where
  files : List (Location × ByteArray)

namespace FileSystem

/-- The device that holds nothing. -/
def nullDevice : Location × ByteArray :=
  (⟨.root, ["dev", "null"]⟩, .empty)

/-- The file system of named files. The null device is there besides, as an empty file. -/
def ofList (files : List (String × ByteArray)) : FileSystem :=
  ⟨nullDevice :: files.map fun (path, content) => ((PathName.ofText path).location, content)⟩

/-- The content of a file. -/
def file? (fs : FileSystem) (l : Location) : Option ByteArray :=
  fs.files.lookup l

/-- Whether a place is a directory. -/
def isDirectory (fs : FileSystem) (l : Location) : Bool :=
  l.names.isEmpty ||
    fs.files.any fun (f, _) =>
      f.anchor = l.anchor && f.names != l.names && l.names.isPrefixOf f.names

/-- Refuses a place that is not a directory. -/
def requireDirectory (fs : FileSystem) (l : Location) : Except FileFault Unit :=
  if fs.isDirectory l then .ok ()
  else if (fs.file? l).isSome then .error .notDirectory
  else .error .notFound

/-- Refuses a component that is too long. -/
def requireShort (component : String) : Except FileFault Unit :=
  if component.utf8ByteSize < PathName.componentLimit then .ok () else .error .nameTooLong

/-- Follows components from a place; each must be followed from a directory. -/
def walk (fs : FileSystem) (l : Location) : List String → Except FileFault Location
  | [] => .ok l
  | component :: rest => do
    fs.requireDirectory l
    requireShort component
    fs.walk (l.follow component) rest

/-- Reads the file that a path names. -/
def read (fs : FileSystem) (path : String) : Except FileFault ByteArray := do
  let p ← PathName.read path
  let l ← fs.walk p.start p.components
  if fs.isDirectory l then throw .isDirectory
  match fs.file? l with
  | some content => return content
  | none => throw .notFound

/-- Gives a place a content, in place of what it had. -/
def put (fs : FileSystem) (l : Location) (content : ByteArray) : FileSystem :=
  ⟨(l, content) :: fs.files.filter fun f => f.1 ≠ l⟩

/-- The components up to the last one that is not empty, that one, and whether empty ones follow. -/
def splitLast (components : List String) : Option (List String × String × Bool) :=
  match components.reverse.dropWhile (· = "") with
  | [] => none
  | last :: before => some (before.reverse, last, components.getLast? = some "")

/-- Writes the file that a path names, which is made if there is none. The directory that is to
hold it must exist, and a final separator asks for a directory. -/
def write (fs : FileSystem) (path : String) (content : ByteArray) :
    Except FileFault FileSystem := do
  let p ← PathName.read path
  match splitLast p.components with
  | none => throw .isDirectory
  | some (before, last, slash) =>
    let directory ← fs.walk p.start before
    fs.requireDirectory directory
    if slash || last = "." || last = ".." then throw .isDirectory
    requireShort last
    let l := directory.child last
    if fs.isDirectory l then throw .isDirectory
    return fs.put l content

end FileSystem

/-- Whether a component names a file or a directory, rather than standing for one already passed. -/
def isFileName (component : List Char) : Bool :=
  component ∉ ["".toList, ".".toList, "..".toList]

/-- A path with the extension of its last component replaced. The extension begins at the last
dot, unless that is the first character. It is cut off behind the dot; if what is left names no
file, the path ends there, and otherwise the new extension takes its place. -/
def withExtension (path extension : String) : String :=
  let name := (path.toList.reverse.takeWhile (· ≠ '/')).reverse
  let directory := path.toList.take (path.toList.length - name.length)
  let beforeDot := (name.reverse.dropWhile (· ≠ '.')).drop 1 |>.reverse
  let stem := if beforeDot.isEmpty then name else beforeDot
  let rest := if beforeDot.isEmpty then name else beforeDot ++ ['.']
  if isFileName rest then String.ofList (directory ++ stem) ++ "." ++ extension
  else String.ofList (directory ++ rest)

end MiniC
