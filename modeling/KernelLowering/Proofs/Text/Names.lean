import KernelLowering.Proofs.Text.Types

namespace KernelLowering

open Text

def isIdentifierChar (c : Char) : Bool := c.isAlphanum || c == '_'

def isIdentifier (text : String) : Bool := text.toList.all isIdentifierChar

theorem isIdentifier_reads {a b : String} {s t : List Char} (ha : isIdentifier a = true)
    (hb : isIdentifier b = true) (hs : Stops isIdentifierChar s) (ht : Stops isIdentifierChar t)
    (h : a.toList ++ s = b.toList ++ t) : a = b ∧ s = t := by
  obtain ⟨hab, hrest⟩ := eq_of_append_eq (List.all_eq_true.1 ha) (List.all_eq_true.1 hb) hs ht h
  exact ⟨String.toList_injective hab, hrest⟩

def isNameEnd (c : Char) : Bool := c == ' ' || c == ',' || c == ':' || c == ')' || c == '[' || c == ']'

def isNameChar (c : Char) : Bool := !isNameEnd c

theorem isNameChar_of_isClosing {c : Char} (hc : isClosing c = true) : isNameChar c = false := by
  simp only [isClosing, Bool.or_eq_true, beq_iff_eq] at hc
  rcases hc with (rfl | rfl) | rfl <;> rfl

theorem isNameChar_of_isNumeral {c : Char} (hc : isNumeral c = true) : isNameChar c = true := by
  simp only [isNameChar, isNameEnd, Bool.not_eq_true', Bool.or_eq_false_iff, beq_eq_false_iff_ne]
  refine ⟨⟨⟨⟨⟨?_, ?_⟩, ?_⟩, ?_⟩, ?_⟩, ?_⟩ <;> rintro rfl <;> cases hc

namespace Name

theorem toList_argument (n : Nat) : (argument n).text.toList = '%' :: 'a' :: 'r' :: 'g' :: Nat.toDigits 10 n := by
  simp [text, ToString.toString]

theorem toList_numbered (n : Nat) : (numbered n).text.toList = '%' :: Nat.toDigits 10 n := by
  simp [text, ToString.toString]

theorem toList_undefined (v : ValueId) : (undefined v).text.toList =
    '%' :: '<' :: 'u' :: 'n' :: 'd' :: 'e' :: 'f' :: (Nat.toDigits 10 v.index ++ ['>']) := by
  simp [text, ToString.toString]

theorem text_injective : Function.Injective text := by
  intro a b h
  have hlist := congrArg String.toList h
  cases a with
  | argument m =>
    cases b with
    | argument n =>
      simp only [toList_argument, List.cons.injEq, true_and] at hlist
      rw [toDigits_injective hlist]
    | numbered n =>
      rw [toList_argument, toList_numbered, List.cons.injEq] at hlist
      exact absurd hlist.2 (cons_ne_toDigits rfl _ n)
    | undefined v => simp [toList_argument, toList_undefined] at hlist
  | numbered m =>
    cases b with
    | argument n =>
      rw [toList_argument, toList_numbered, List.cons.injEq] at hlist
      exact absurd hlist.2.symm (cons_ne_toDigits rfl _ m)
    | numbered n =>
      rw [toList_numbered, toList_numbered, List.cons.injEq] at hlist
      rw [toDigits_injective hlist.2]
    | undefined v =>
      rw [toList_undefined, toList_numbered, List.cons.injEq] at hlist
      exact absurd hlist.2.symm (cons_ne_toDigits rfl _ m)
  | undefined u =>
    cases b with
    | argument n => simp [toList_argument, toList_undefined] at hlist
    | numbered n =>
      rw [toList_undefined, toList_numbered, List.cons.injEq] at hlist
      exact absurd hlist.2 (cons_ne_toDigits rfl _ n)
    | undefined v =>
      simp only [toList_undefined, List.cons.injEq, true_and] at hlist
      obtain ⟨u⟩ := u
      obtain ⟨v⟩ := v
      obtain rfl : u = v := toDigits_injective (List.append_cancel_right hlist)
      rfl

theorem isNameChar_of_mem_text {a : Name} {c : Char} (hc : c ∈ a.text.toList) : isNameChar c = true := by
  have hdigits : ∀ n, c ∈ Nat.toDigits 10 n → isNameChar c = true := fun n hn =>
    isNameChar_of_isNumeral (isNumeral_of_mem_toDigits hn)
  cases a with
  | argument n =>
    simp only [toList_argument, List.mem_cons] at hc
    rcases hc with rfl | rfl | rfl | rfl | hc
    iterate 4 rfl
    exact hdigits n hc
  | numbered n =>
    rw [toList_numbered, List.mem_cons] at hc
    rcases hc with rfl | hc
    · rfl
    · exact hdigits n hc
  | undefined v =>
    simp only [toList_undefined, List.mem_cons, List.mem_append, List.not_mem_nil, or_false] at hc
    rcases hc with rfl | rfl | rfl | rfl | rfl | rfl | rfl | hc | rfl
    iterate 7 rfl
    · exact hdigits v.index hc
    · rfl

theorem reads_text : Reads text (Stops isNameChar) :=
  .of_class text_injective fun _ _ => isNameChar_of_mem_text

theorem text_eq_cons (a : Name) : ∃ rest, a.text.toList = '%' :: rest := by
  cases a with
  | argument n => exact ⟨_, toList_argument n⟩
  | numbered n => exact ⟨_, toList_numbered n⟩
  | undefined v => exact ⟨_, toList_undefined v⟩

end Name

namespace SuppliedOffset

theorem toList_missing : (text missing).toList = ['<', 'm', 'i', 's', 's', 'i', 'n', 'g', '>'] := by
  simp [text]

theorem text_eq_cons (a : SuppliedOffset Name) : ∃ c rest, (text a).toList = c :: rest ∧
    (isNumeral c = true ↔ ∃ n, a = static n) ∧ (c = '%' ↔ ∃ v, a = supplied v) ∧ isClosing c = false := by
  cases a with
  | static n =>
    obtain ⟨c, rest, hn, hc⟩ := int_eq_cons n
    refine ⟨c, rest, hn, by simp [hc], ?_, ?_⟩
    · refine iff_of_false ?_ (by simp)
      rintro rfl
      cases hc
    · refine Bool.eq_false_iff.2 fun hclose => ?_
      rw [isNumeral_of_isClosing hclose] at hc
      cases hc
  | supplied v =>
    obtain ⟨rest, hv⟩ := v.text_eq_cons
    exact ⟨'%', rest, hv, iff_of_false (by decide) (by simp), by simp, rfl⟩
  | missing =>
    exact ⟨'<', _, toList_missing, iff_of_false (by decide) (by simp), by simp, rfl⟩

theorem text_injective : Function.Injective (text : SuppliedOffset Name → String) := by
  intro a b h
  obtain ⟨c, rest, ha, hnumeral, hpercent, -⟩ := text_eq_cons a
  obtain ⟨c', rest', hb, hnumeral', hpercent', -⟩ := text_eq_cons b
  obtain rfl : c = c' := by
    rw [h, hb] at ha
    exact (List.cons.inj ha).1.symm
  -- The first character tells which form the offset has.
  cases a with
  | static m =>
    obtain ⟨n, rfl⟩ := hnumeral'.1 (hnumeral.2 ⟨m, rfl⟩)
    rw [int_injective h]
  | supplied u =>
    obtain ⟨v, rfl⟩ := hpercent'.1 (hpercent.2 ⟨u, rfl⟩)
    rw [Name.text_injective h]
  | missing =>
    cases b with
    | static n => exact absurd (hnumeral.1 (hnumeral'.2 ⟨n, rfl⟩)) (by simp)
    | supplied v => exact absurd (hpercent.1 (hpercent'.2 ⟨v, rfl⟩)) (by simp)
    | missing => rfl

theorem reads_text : Reads (text : SuppliedOffset Name → String) (Stops isNameChar) := by
  refine .of_class text_injective fun a c hc => ?_
  cases a with
  | static n => exact isNameChar_of_isNumeral (isNumeral_of_mem_int hc)
  | supplied v => exact Name.isNameChar_of_mem_text hc
  | missing =>
    rw [toList_missing] at hc
    exact List.all_eq_true.1 rfl c hc

end SuppliedOffset

theorem Name.reads_all : Reads (fun names : List Name => commas (names.map text)) Closes :=
  .commas rfl (fun _ => isNameChar_of_isClosing) reads_text fun v => by
    obtain ⟨rest, hv⟩ := v.text_eq_cons
    exact ⟨'%', rest, hv, rfl⟩

theorem SuppliedOffset.reads_all :
    Reads (fun offsets : List (SuppliedOffset Name) => commas (offsets.map text)) Closes :=
  .commas rfl (fun _ => isNameChar_of_isClosing) reads_text fun a => by
    obtain ⟨c, rest, ha, -, -, hc⟩ := text_eq_cons a
    exact ⟨c, rest, ha, hc⟩

theorem ValueType.reads_all : Reads (fun types : List ValueType => commas (types.map text)) Closes := by
  have h : Reads text (Stops fun _ => false) := reads_text.mono fun _ _ => trivial
  refine .commas rfl (fun _ _ => rfl) h fun type => ?_
  cases type with
  | index => exact ⟨'i', ['n', 'd', 'e', 'x'], by simp [text], rfl⟩
  | buffer type => exact ⟨'m', _, by simp [text, BufferType.text]; rfl, rfl⟩

namespace Typed

theorem ext {a b : Typed} (hname : a.name = b.name) (htype : a.type = b.type) : a = b := by
  cases a
  cases b
  cases hname
  cases htype
  rfl

theorem names_eq (operands : List Typed) :
    names operands = commas ((operands.map (·.name)).map Name.text) := by
  simp [names, Function.comp_def]

theorem types_eq (operands : List Typed) :
    types operands = commas ((operands.map (·.type)).map ValueType.text) := by
  simp [types, Function.comp_def]

theorem eq_of_names_types {as bs : List Typed} (hnames : as.map (·.name) = bs.map (·.name))
    (htypes : as.map (·.type) = bs.map (·.type)) : as = bs := by
  have hzip : ∀ l : List Typed, List.zipWith mk (l.map (·.name)) (l.map (·.type)) = l := fun l => by
    induction l with
    | nil => rfl
    | cons a l ih => simp [ih]
  rw [← hzip as, hnames, htypes, hzip]

end Typed

theorem LoopRange.ext {r q : LoopRange} (hlower : r.lower = q.lower) (hupper : r.upper = q.upper)
    (hstep : r.step = q.step) : r = q := by
  cases r
  cases q
  cases hlower
  cases hupper
  cases hstep
  rfl

theorem LoopRange.eq_of_bounds {rs qs : List LoopRange} (hlower : rs.map (·.lower) = qs.map (·.lower))
    (hupper : rs.map (·.upper) = qs.map (·.upper)) (hstep : rs.map (·.step) = qs.map (·.step)) : rs = qs := by
  induction rs generalizing qs with
  | nil => exact (List.map_eq_nil_iff.1 hlower.symm).symm
  | cons r rs ih =>
    cases qs with
    | nil => cases hlower
    | cons q qs =>
      simp only [List.map_cons, List.cons.injEq] at hlower hupper hstep
      rw [ext hlower.1 hupper.1 hstep.1, ih hlower.2 hupper.2 hstep.2]

end KernelLowering
