/-!
# Files

Reading a file gives its bytes or the message of the system that it could not be read. A finite set
of files can stand for a whole file system.
-/

namespace EpubStyle.Bytes

/-- How the file at a path is read. -/
abbrev FileReader := String → Except String (List UInt8)

/-- The message for a path at which there is no file. -/
def missingFile : String := "No such file or directory (os error 2)"

/-- The file system that holds the given files only. -/
def FileReader.ofList (files : List (String × List UInt8)) : FileReader := fun path =>
  match files.lookup path with
  | some bytes => .ok bytes
  | none => .error missingFile

end EpubStyle.Bytes
