import KernelLowering.Program.Printer
import Mathlib.Data.List.TakeWhile

namespace KernelLowering

namespace Text

variable {α : Type} {K : Char → Bool} {a b s t : List Char}

def Stops (K : Char → Bool) (s : List Char) : Prop := ∀ c ∈ s.head?, K c = false

def Reads (text : α → String) (ends : List Char → Prop) : Prop :=
  ∀ ⦃a b : α⦄ ⦃s t : List Char⦄, ends s → ends t →
    (text a).toList ++ s = (text b).toList ++ t → a = b ∧ s = t

@[simp] theorem stops_cons {c : Char} : Stops K (c :: s) ↔ K c = false := by
  simp [Stops]

theorem takeWhile_append_of_stops (ha : ∀ c ∈ a, K c = true) (hs : Stops K s) :
    (a ++ s).takeWhile K = a := by
  rw [List.takeWhile_append_of_pos ha]
  cases s with
  | nil => simp
  | cons c s =>
    rw [stops_cons] at hs
    simp [hs]

theorem eq_of_append_eq (ha : ∀ c ∈ a, K c = true) (hb : ∀ c ∈ b, K c = true) (hs : Stops K s)
    (ht : Stops K t) (h : a ++ s = b ++ t) : a = b ∧ s = t := by
  have hab : a = b := by
    rw [← takeWhile_append_of_stops ha hs, h, takeWhile_append_of_stops hb ht]
  subst hab
  exact ⟨rfl, List.append_cancel_left h⟩

theorem Reads.of_class {text : α → String} (hinj : Function.Injective text)
    (hclass : ∀ a, ∀ c ∈ (text a).toList, K c = true) : Reads text (Stops K) := by
  intro a b s t hs ht h
  obtain ⟨htext, hrest⟩ := eq_of_append_eq (hclass a) (hclass b) hs ht h
  exact ⟨hinj (String.toList_injective htext), hrest⟩

theorem Reads.mono {text : α → String} {ends ends' : List Char → Prop} (h : Reads text ends)
    (hends : ∀ s, ends' s → ends s) : Reads text ends' := fun _ _ s t hs ht he => h (hends s hs) (hends t ht) he

section Between

variable {text : α → String} {ends : List Char → Prop} {x y : α} {u m : List Char}

theorem Reads.behind (h : Reads text ends)
    (he : u ++ ((text x).toList ++ s) = u ++ ((text y).toList ++ t)) (hs : ends s) (ht : ends t) :
    x = y ∧ s = t := h hs ht (List.append_cancel_left he)

theorem Reads.before (h : Reads text ends)
    (he : (text x).toList ++ (m ++ s) = (text y).toList ++ (m ++ t)) (hm : ∀ s, ends (m ++ s)) :
    x = y ∧ s = t := by
  obtain ⟨hxy, hrest⟩ := h (hm s) (hm t) he
  exact ⟨hxy, List.append_cancel_left hrest⟩

theorem Reads.between (h : Reads text ends)
    (he : u ++ ((text x).toList ++ (m ++ s)) = u ++ ((text y).toList ++ (m ++ t)))
    (hm : ∀ s, ends (m ++ s)) : x = y ∧ s = t := h.before (List.append_cancel_left he) hm

end Between

section Numbers

theorem toDigits_injective {m n : Nat} (h : Nat.toDigits 10 m = Nat.toDigits 10 n) : m = n := by
  have hvalue := congrArg (fun ds => Nat.ofDigitChars 10 ds 0) h
  simpa using hvalue

def isNumeral (c : Char) : Bool := c.isDigit || c == '-'

theorem toList_int_natCast (n : Nat) : (int n).toList = Nat.toDigits 10 n := String.toList_ofList

theorem toList_int_negSucc (n : Nat) : (int (.negSucc n)).toList = '-' :: Nat.toDigits 10 (n + 1) := by
  have htext : int (.negSucc n) = "-" ++ (n + 1).repr := rfl
  simp [htext]

theorem cons_ne_toDigits {c : Char} (hc : c.isDigit = false) (s : List Char) (n : Nat) :
    c :: s ≠ Nat.toDigits 10 n := fun h => by
  have hdigit := Nat.isDigit_of_mem_toDigits (by decide) (by decide) (h ▸ List.mem_cons_self)
  rw [hc] at hdigit
  cases hdigit

theorem int_injective : Function.Injective int := by
  intro m n h
  have hlist := congrArg String.toList h
  cases m with
  | ofNat m =>
    cases n with
    | ofNat n =>
      rw [Int.ofNat_eq_natCast, toList_int_natCast, Int.ofNat_eq_natCast, toList_int_natCast] at hlist
      rw [toDigits_injective hlist]
    | negSucc n =>
      rw [Int.ofNat_eq_natCast, toList_int_natCast, toList_int_negSucc] at hlist
      exact absurd hlist.symm (cons_ne_toDigits rfl _ m)
  | negSucc m =>
    cases n with
    | ofNat n =>
      rw [Int.ofNat_eq_natCast, toList_int_natCast, toList_int_negSucc] at hlist
      exact absurd hlist (cons_ne_toDigits rfl _ n)
    | negSucc n =>
      rw [toList_int_negSucc, toList_int_negSucc, List.cons.injEq] at hlist
      rw [Nat.succ.inj (toDigits_injective hlist.2)]

theorem isNumeral_of_mem_toDigits {n : Nat} {c : Char} (hc : c ∈ Nat.toDigits 10 n) :
    isNumeral c = true := by
  rw [isNumeral, Nat.isDigit_of_mem_toDigits (by decide) (by decide) hc, Bool.true_or]

theorem isNumeral_of_mem_int {n : Int} {c : Char} (hc : c ∈ (int n).toList) : isNumeral c = true := by
  cases n with
  | ofNat n =>
    rw [Int.ofNat_eq_natCast, toList_int_natCast] at hc
    exact isNumeral_of_mem_toDigits hc
  | negSucc n =>
    rw [toList_int_negSucc] at hc
    rcases List.mem_cons.1 hc with rfl | hc
    · rfl
    · exact isNumeral_of_mem_toDigits hc

theorem reads_int : Reads int (Stops isNumeral) := .of_class int_injective fun _ _ => isNumeral_of_mem_int

end Numbers

section Lists

def isClosing (c : Char) : Bool := c == ' ' || c == ')' || c == ']'

def Closes (s : List Char) : Prop := ∃ c rest, s = c :: rest ∧ isClosing c = true

@[simp] theorem closes_cons {c : Char} : Closes (c :: s) ↔ isClosing c = true :=
  ⟨fun ⟨_, _, he, hc⟩ => (List.cons.inj he).1 ▸ hc, fun hc => ⟨c, s, rfl, hc⟩⟩

theorem Closes.stops (hs : Closes s) (hclose : ∀ c, isClosing c = true → K c = false) : Stops K s := by
  obtain ⟨c, rest, rfl, hc⟩ := hs
  exact stops_cons.2 (hclose c hc)

def behind (text : α → String) (items : List α) : List Char :=
  items.flatMap fun item => ',' :: ' ' :: (text item).toList

theorem toList_commas_cons (text : α → String) (a : α) (as : List α) :
    (commas ((a :: as).map text)).toList = (text a).toList ++ behind text as := by
  induction as generalizing a with
  | nil => exact (List.append_nil _).symm
  | cons a' as ih =>
    have hjoin : commas ((a :: a' :: as).map text) = text a ++ ", " ++ commas ((a' :: as).map text) := rfl
    rw [hjoin, String.toList_append, String.toList_append, ih]
    simp [behind]

section Reads

variable {text : α → String} (hcomma : K ',' = false) (hclose : ∀ c, isClosing c = true → K c = false)
include hcomma hclose

theorem stops_behind (text : α → String) (as : List α) (hs : Closes s) : Stops K (behind text as ++ s) := by
  cases as with
  | nil => exact hs.stops hclose
  | cons a as => exact stops_cons.2 hcomma

variable (h : Reads text (Stops K))
include h

theorem reads_behind {as bs : List α} (hs : Closes s) (ht : Closes t)
    (he : behind text as ++ s = behind text bs ++ t) : as = bs ∧ s = t := by
  have hcons : ∀ {b bs} {s t : List Char}, Closes s → s ≠ behind text (b :: bs) ++ t := by
    rintro b bs s t ⟨c, rest, rfl, hc⟩ he
    rw [(List.cons.inj he).1] at hc
    cases hc
  induction as generalizing bs with
  | nil =>
    cases bs with
    | nil => exact ⟨rfl, he⟩
    | cons b bs => exact absurd he (hcons hs)
  | cons a as ih =>
    cases bs with
    | nil => exact absurd he.symm (hcons ht)
    | cons b bs =>
      simp only [behind, List.flatMap_cons, List.cons_append, List.append_assoc, List.cons.injEq,
        true_and] at he
      obtain ⟨rfl, hrest⟩ := h (stops_behind hcomma hclose text as hs)
        (stops_behind hcomma hclose text bs ht) he
      obtain ⟨rfl, hend⟩ := ih hrest
      exact ⟨rfl, hend⟩

theorem Reads.commas (hopen : ∀ a, ∃ c rest, (text a).toList = c :: rest ∧ isClosing c = false) :
    Reads (fun items : List α => Text.commas (items.map text)) Closes := by
  have hcons : ∀ {b bs} {s t : List Char}, Closes s →
      s ≠ (Text.commas ((b :: bs).map text)).toList ++ t := by
    rintro b bs s t ⟨c, rest, rfl, hc⟩ he
    obtain ⟨c', rest', hb, hc'⟩ := hopen b
    rw [toList_commas_cons, hb] at he
    rw [← (List.cons.inj he).1, hc] at hc'
    cases hc'
  intro as bs s t hs ht he
  cases as with
  | nil =>
    cases bs with
    | nil => exact ⟨rfl, he⟩
    | cons b bs => exact absurd he (hcons hs)
  | cons a as =>
    cases bs with
    | nil => exact absurd he.symm (hcons ht)
    | cons b bs =>
      simp only [toList_commas_cons, List.append_assoc] at he
      obtain ⟨rfl, hrest⟩ := h (stops_behind hcomma hclose text as hs)
        (stops_behind hcomma hclose text bs ht) he
      obtain ⟨rfl, hend⟩ := reads_behind hcomma hclose h hs ht hrest
      exact ⟨rfl, hend⟩

end Reads

end Lists

end Text

end KernelLowering
