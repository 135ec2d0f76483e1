/-!
# Dump paths

Where a generated class is written below a directory: each segment of the class name becomes a
component of the path, and the last component gets the extension `class` in place of its own.

A path under construction is held backwards, so that its last component is at hand.
-/

namespace ClassForge.DumpPath

/-- The parts of a text between slashes. -/
def segments : List Char → List (List Char)
  | [] => [[]]
  | c :: cs =>
    if c = '/' then [] :: segments cs
    else
      match segments cs with
      | [] => [[c]]
      | s :: rest => (c :: s) :: rest

/-- A backwards path with one more part; a slash goes between unless there is one. -/
def pushPart (back part : List Char) : List Char :=
  match back with
  | [] | '/' :: _ => part.reverse ++ back
  | _ => part.reverse ++ '/' :: back

/-- Drops slashes and components `.` up to the first other component. A lone `.` at the end stays.
Works on a path from its front, and on a backwards path from its end. -/
def skipIdle : List Char → List Char
  | '/' :: rest => skipIdle rest
  | '.' :: '/' :: rest => skipIdle rest
  | rest => rest

/-- The file name, given backwards, without its extension: what stands before its last dot, unless
nothing does. -/
def stem (name : List Char) : List Char :=
  match name.dropWhile (· ≠ '.') with
  | [] | ['.'] => name
  | _ :: rest => rest

/-- A backwards path with the extension `class` on its last component. A path that names no file
stays as it is. -/
def withClassExtension (back : List Char) : List Char :=
  let trimmed := skipIdle back
  let name := trimmed.takeWhile (· ≠ '/')
  if name = [] ∨ name = ['.'] ∨ name = ['.', '.'] then back
  else ".class".toList.reverse ++ stem name ++ trimmed.dropWhile (· ≠ '/')

/-- The path of a class below a directory. -/
def ofName (dir name : String) : String :=
  let back := (segments name.toList).foldl pushPart dir.toList.reverse
  String.ofList (withClassExtension back).reverse

/-- The directory that a path's last component stands in. -/
def parent (path : String) : String :=
  let rest := (skipIdle path.toList.reverse).dropWhile (· ≠ '/')
  String.ofList (skipIdle rest).reverse

/-- The path without idle components at its front. -/
def relative (path : String) : String := String.ofList (skipIdle path.toList)

end ClassForge.DumpPath
