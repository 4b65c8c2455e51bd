import KernelLowering.Fault

namespace KernelLowering.Text

structure Sink where
  capacity : Nat
  written : List UInt8
  deriving DecidableEq, Repr

namespace Sink

def make (capacity : Nat) : Except Fault Sink :=
  if 9223372036854775807 < capacity then .error .capacityOverflow else .ok ⟨capacity, []⟩

def left (s : Sink) : Nat := s.capacity - s.written.length

def write (s : Sink) (text : String) : Sink × Bool :=
  let bytes := text.toUTF8.toList
  ({ s with written := s.written ++ bytes.take s.left }, bytes.length ≤ s.left)

def writeAll : Sink → List String → Sink × List Bool
  | s, [] => (s, [])
  | s, text :: texts =>
      let (s, fitted) := s.write text
      let (s, rest) := s.writeAll texts
      (s, fitted :: rest)

def contents (s : Sink) : List UInt8 := s.written ++ List.replicate s.left 0

theorem length_written_write (s : Sink) (text : String) (h : s.written.length ≤ s.capacity) :
    (s.write text).1.written.length ≤ s.capacity := by
  simp only [write, List.length_append, List.length_take, left]
  omega

theorem length_contents {s : Sink} (h : s.written.length ≤ s.capacity) :
    s.contents.length = s.capacity := by
  simp only [contents, List.length_append, List.length_replicate, left]
  omega

end Sink

end KernelLowering.Text
