import FDemo.Foundation.DirectoryTree
import FDemo.Protobuf.Message

/-! # Where a path leads

A path is walked component by component from its drive. Both separators count, an
empty component and `.` stay where they are, and `..` goes back up. A stream opens
its path as a C string. Letter case and links are the operating system's.
-/
namespace FDemo.MapServer
open Packet DirectoryTree

def isSeparator (b : UInt8) : Bool := b == 0x2F || b == 0x5C

def components (path : Bytes) : List Bytes := path.splitOnP isSeparator

/-- The step that one component makes; an empty one and `.` stay where they are. -/
def segment (component : Bytes) : Option (Segment Bytes) :=
  if component = [] ∨ component = utf8 "." then none
  else if component = utf8 ".." then some .up
  else some (.down component)

def segments (path : Bytes) : List (Segment Bytes) := (components path).filterMap segment

/-- The drive and the names under it. -/
abbrev Place := List Bytes

/-- The drive and the directories under it; the top of a drive is its own parent. -/
def resolve (path : Bytes) : Place :=
  match components path with
  | [] => []
  | drive :: rest => drive :: walk [] (rest.filterMap segment)

/-- `std::string(s.c_str())`. -/
def cString (s : Bytes) : Bytes := s.takeWhile (· ≠ 0)

/-- The file that a stream opens. Proofs only compare files, so it stays folded. -/
@[irreducible] def fileAt (path : Bytes) : Place := resolve (cString path)

def mapResPath : Bytes :=
  utf8 "C:/Users/zmaib/Project/dreame/build-hxMapEditor-Desktop_Qt_5_15_2_MSVC2019_64bit-Release/.config/map/"

theorem mapResPath_utf8 {mapName fileName : Bytes} (hmap : ValidUtf8 mapName) (hfile : ValidUtf8 fileName) :
    ValidUtf8 (mapResPath ++ mapName ++ utf8 "/" ++ fileName) := by
  have hroot : ValidUtf8 mapResPath := by decide +kernel
  have hslash : ValidUtf8 (utf8 "/") := by decide +kernel
  exact ((hroot.append hmap).append hslash).append hfile

end FDemo.MapServer
