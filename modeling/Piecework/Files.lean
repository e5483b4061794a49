import Piecework.Http.Target

/-!
# Files of a working directory

A path is walked step by step from the working directory. Only the files named
and the folders above them are known there; outside the directory there are
folders on the way and nothing else.
-/

namespace Piecework

/-- What a path leads to. -/
inductive Found where
  | nothing
  | unreadable
  | file (contents : String)
  deriving DecidableEq, Repr

namespace Files

/-- The files of a directory: the steps to each and its contents. -/
abbrev Directory := List (List String × String)

/-- The steps of a path. -/
def steps (path : String) : List String := (Http.splitAt '/' path.toList).map String.ofList

/-- The directory of some files with their paths. -/
def Directory.ofFiles (files : List (String × String)) : Directory :=
  files.map fun f => (steps f.1, f.2)

/-- What is found at a place, named by the steps to it. -/
def look (d : Directory) (place : List String) : Found :=
  match d.lookup place with
  | some contents => .file contents
  | none =>
    if place.isEmpty ∨ d.any fun f => place.isPrefixOf f.1 then .unreadable else .nothing

/-- Whether a step stays where it is. -/
def isStill (step : String) : Bool := step == "" || step == "."

/-- Walk steps outside the working directory. -/
def walkOutside (steps : List String) : Found :=
  if steps.all fun s => isStill s || s == ".." then .unreadable else .nothing

/-- Walk steps from a place in the working directory; only a folder can be walked on from. -/
def walk (d : Directory) (place : List String) : List String → Found
  | [] => look d place
  | s :: rest =>
    match look d place with
    | .unreadable =>
      if isStill s then walk d place rest
      else if s = ".." then
        if place.isEmpty then walkOutside rest else walk d place.dropLast rest
      else walk d (place ++ [s]) rest
    | _ => .nothing

/-- What a path leads to. -/
def find (d : Directory) (path : String) : Found :=
  match path.toList with
  | [] => .nothing
  | '/' :: _ => walkOutside (steps path)
  | _ => walk d [] (steps path)

end Files

end Piecework
