import KernelLowering.Unicode.Emoji
import KernelLowering.Unicode.GraphemeExtend
import KernelLowering.Unicode.Widths

namespace KernelLowering.Table

open Unicode

def isControl (c : Char) : Bool := c.toNat < 0x20 || 0x7f ≤ c.toNat && c.toNat < 0xa0

def isZeroWidth (c : Char) : Bool :=
  c.toNat != 0x2d7f &&
    (graphemeExtend.has c || defaultIgnorable.has c || trailingJamo.has c || prependedSigns.has c)

def isDoubleWidth (c : Char) : Bool :=
  c.toNat = 0x115f || c.toNat = 0x17a4 || !isZeroWidth c && eastAsianWide.has c

def charWidth (c : Char) : Nat :=
  if isControl c then 0
  else if c.toNat < 0x300 && c.toNat != 0xad then 1
  else if c.toNat = 0x17d8 then 3
  else if isDoubleWidth c then 2
  else if isZeroWidth c then 0
  else 1

theorem charWidth_le (c : Char) : charWidth c ≤ 3 := by
  unfold charWidth
  split <;> (try omega)
  split <;> (try omega)
  split <;> (try omega)
  split <;> (try omega)
  split <;> omega

end KernelLowering.Table

namespace KernelLowering.Table

open Unicode

inductive Start where
  | ordinary
  | alef
  | lamed (joined : Bool)
  | buginese (joined : Bool)
  | bugineseVowel
  | khmer
  | tifinagh (joined : Bool)
  | tifinaghJoiner
  | lisuTone
  | orkhon (joined : Bool)
  | emoji
  | skinTone
  | flagLetter
  | flagLetters
  | joinedEmoji
  | joinedKeycap
  | joinedFlag (letters : Nat)
  | tagLetters (count : Nat)
  | tagDigits (count : Nat)
  deriving DecidableEq, Repr

inductive Style where
  | text
  | emoji
  deriving DecidableEq, Repr

structure Context where
  style : Option Style
  start : Start
  deriving DecidableEq, Repr

def isJoiner (c : Char) : Bool := c.toNat = 0x200d

def isFlagLetter (c : Char) : Bool := 0x1f1e6 ≤ c.toNat && c.toNat ≤ 0x1f1ff

def isSkinTone (c : Char) : Bool := 0x1f3fb ≤ c.toNat && c.toNat ≤ 0x1f3ff

def isTagLetter (c : Char) : Bool := 0xe0061 ≤ c.toNat && c.toNat ≤ 0xe007a

def isTagDigit (c : Char) : Bool := 0xe0030 ≤ c.toNat && c.toNat ≤ 0xe0039

def isTifinaghLetter (c : Char) : Bool :=
  0x2d31 ≤ c.toNat && c.toNat ≤ 0x2d65 || c.toNat = 0x2d6f

def isLisuTone (first last : Nat) (c : Char) : Bool := first ≤ c.toNat && c.toNat ≤ last

def khmerLetters : CodeRanges :=
  [(0x1780, 0x1782), (0x1784, 0x1787), (0x1789, 0x178c), (0x178e, 0x1793), (0x1795, 0x1798),
   (0x179b, 0x179d), (0x17a0, 0x17a0), (0x17a2, 0x17a2), (0x17a7, 0x17a7), (0x17ab, 0x17ac),
   (0x17af, 0x17af)]

def hasEmojiStyle (c : Char) : Bool := textPresentation.has c || emojiWithTextStyle.has c

def isNarrowAsText (c : Char) : Bool :=
  emojiWithTextStyle.has c && !(0x1f200 ≤ c.toNat && c.toNat < 0x1f300)

def liesBetween (c : Char) : Bool := charWidth c = 0 && !isControl c && !interrupting.has c

namespace Start

def ofChar (c : Char) : Start :=
  if c.toNat < 0x300 then ordinary
  else if alefGroup.has c then alef
  else if c.toNat = 0x5dc then lamed false
  else if c.toNat = 0x1a10 then buginese false
  else if khmerLetters.has c then khmer
  else if isTifinaghLetter c then tifinagh false
  else if isLisuTone 0xa4fc 0xa4fd c then lisuTone
  else if c.toNat = 0x10c03 then orkhon false
  else if isFlagLetter c then flagLetter
  else if isSkinTone c then skinTone
  else if emojiPresentation.has c then emoji
  else ordinary

def isLetter : Start → Bool
  | alef | lamed _ | buginese _ | bugineseVowel | khmer | tifinagh _ | tifinaghJoiner | lisuTone
  | orkhon _ => true
  | _ => false

def isJoinedEmoji : Start → Bool
  | joinedEmoji | joinedKeycap => true
  | _ => false

def joined : Start → Start
  | lamed _ => lamed true
  | buginese _ => buginese true
  | tifinagh _ => tifinagh true
  | orkhon _ => orkhon true
  | start => start

def behindStyle (start : Start) : Start := if start.isLetter then start else ordinary

def joinLetter : Start → Char → Option (Int × Start)
  | alef, c =>
      if lamGroup.has c then some (0, ordinary)
      else if liesBetween c then some (0, alef)
      else none
  | lamed true, c => if c.toNat = 0x5d0 then some (0, ordinary) else none
  | khmer, c => if c.toNat = 0x17d2 then some (-1, ordinary) else none
  | buginese true, c => if c.toNat = 0x1a17 then some (0, bugineseVowel) else none
  | bugineseVowel, c => if c.toNat = 0x1a15 then some (0, ordinary) else none
  | tifinagh joined, c =>
      if c.toNat = 0x2d7f then some (1, tifinaghJoiner)
      else if joined && isTifinaghLetter c then some (0, ordinary)
      else none
  | tifinaghJoiner, c => if isTifinaghLetter c then some (-1, ordinary) else none
  | lisuTone, c => if isLisuTone 0xa4f8 0xa4fb c then some (0, ordinary) else none
  | orkhon true, c => if c.toNat = 0x10c32 then some (0, ordinary) else none
  | _, _ => none

def joinEmoji : Start → Char → Option (Int × Start)
  | emoji, c => if isJoiner c then some (0, joinedEmoji) else none
  | skinTone, c =>
      if modifierBase.has c then some (0, emoji)
      else if isJoiner c then some (0, joinedEmoji)
      else none
  | flagLetter, c => if isFlagLetter c then some (1, flagLetters) else none
  | flagLetters, c =>
      if isFlagLetter c then some (1, flagLetters)
      else if isJoiner c then some (0, joinedEmoji)
      else none
  | joinedEmoji, c =>
      if c.toNat = 0x20e3 then some (0, joinedKeycap)
      else if isFlagLetter c then some (1, joinedFlag 1)
      else if isSkinTone c then some (0, skinTone)
      else if c.toNat = 0xe007f then some (0, tagLetters 0)
      else if ofChar c = emoji then some (0, emoji)
      else none
  | joinedFlag letters, c =>
      if isFlagLetter c then
        some (if letters % 2 = 1 then -1 else 3, joinedFlag (letters + 1))
      else if isJoiner c && 2 ≤ letters then some (0, joinedEmoji)
      else none
  | tagLetters count, c =>
      if isTagLetter c && count < 6 then some (0, tagLetters (count + 1))
      else if isTagDigit c && count ≤ 4 then some (0, tagDigits 1)
      else if c.toNat = 0x1f3f4 && 3 ≤ count then some (0, emoji)
      else none
  | tagDigits count, c =>
      if isTagDigit c && count < 3 then some (0, tagDigits (count + 1))
      else if c.toNat = 0x1f3f4 && count = 3 then some (0, emoji)
      else none
  | _, _ => none

end Start

def addBefore (start : Start) (c : Char) : Int × Start :=
  if start.isLetter && start != .alef && isJoiner c then (0, start.joined)
  else if start.isLetter && start != .alef && ignorableMarks.has c then (0, start)
  else ((start.joinLetter c).or (start.joinEmoji c)).getD (charWidth c, .ofChar c)

def addColumns (c : Char) (right : Context) : Int × Context :=
  if right.style = some .emoji && hasEmojiStyle c then
    (if right.start.isJoinedEmoji then 0 else 2, ⟨none, .emoji⟩)
  else if c.toNat ≤ 0xa0 then (1, ⟨none, .ordinary⟩)
  else
    let start := if right.style.isSome then right.start.behindStyle else right.start
    if c.toNat = 0xfe0f then
      (0, ⟨some .emoji, if start.isJoinedEmoji then start else start.behindStyle⟩)
    else if c.toNat = 0xfe0e then (0, ⟨some .text, start.behindStyle⟩)
    else if right.style = some .text && isNarrowAsText c then (1, ⟨none, .ordinary⟩)
    else
      let (columns, start) := addBefore start c
      (columns, ⟨none, start⟩)

def measure : List Char → Int × Context
  | [] => (0, ⟨none, .ordinary⟩)
  | c :: cs =>
      let (columns, right) := measure cs
      let (added, left) := addColumns c right
      (columns + added, left)

def columnsOf (line : List Char) : Nat := (measure line).1.toNat

end KernelLowering.Table
