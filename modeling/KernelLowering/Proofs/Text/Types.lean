import KernelLowering.Proofs.Text.Reading

namespace KernelLowering

namespace Text

variable {s t : List Char}

theorem isNumeral_of_isClosing {c : Char} (hc : isClosing c = true) : isNumeral c = false := by
  simp only [isClosing, Bool.or_eq_true, beq_iff_eq] at hc
  rcases hc with (rfl | rfl) | rfl <;> rfl

theorem int_eq_cons (n : Int) : ∃ c rest, (int n).toList = c :: rest ∧ isNumeral c = true := by
  cases hn : (int n).toList with
  | nil =>
    cases n with
    | ofNat n =>
      rw [Int.ofNat_eq_natCast, toList_int_natCast] at hn
      exact absurd hn (by simp)
    | negSucc n =>
      rw [toList_int_negSucc] at hn
      cases hn
  | cons c rest => exact ⟨c, rest, rfl, isNumeral_of_mem_int (hn ▸ List.mem_cons_self)⟩

theorem reads_ints : Reads ints Closes := by
  refine Reads.commas rfl (fun c hc => isNumeral_of_isClosing hc) reads_int fun n => ?_
  obtain ⟨c, rest, hn, hc⟩ := int_eq_cons n
  refine ⟨c, rest, hn, Bool.eq_false_iff.2 fun hclose => ?_⟩
  rw [isNumeral_of_isClosing hclose] at hc
  cases hc

end Text

open Text

variable {s t : List Char}

def Shape.prefixText (shape : Shape) : String := String.join (shape.map fun extent => Text.int extent ++ "x")

theorem Shape.toList_prefixText_cons (extent : Int) (shape : Shape) :
    (prefixText (extent :: shape)).toList = (Text.int extent).toList ++ 'x' :: (prefixText shape).toList := by
  simp [prefixText]

theorem Shape.reads_prefixText : Reads prefixText (Stops isNumeral) := by
  have hcons : ∀ {extent shape} {s t : List Char}, Stops isNumeral s →
      s ≠ (prefixText (extent :: shape)).toList ++ t := by
    intro extent shape s t hs he
    obtain ⟨c, rest, hc, hnumeral⟩ := Text.int_eq_cons extent
    rw [toList_prefixText_cons, hc, List.cons_append, List.cons_append] at he
    rw [he, stops_cons, hnumeral] at hs
    cases hs
  intro a
  induction a with
  | nil =>
    intro b s t hs _ he
    cases b with
    | nil => exact ⟨rfl, he⟩
    | cons extent b => exact absurd he (hcons hs)
  | cons extent a ih =>
    intro b s t hs ht he
    cases b with
    | nil => exact absurd he.symm (hcons ht)
    | cons extent' b =>
      simp only [toList_prefixText_cons, List.append_assoc, List.cons_append] at he
      obtain ⟨rfl, hrest⟩ := reads_int (stops_cons.2 rfl) (stops_cons.2 rfl) he
      obtain ⟨rfl, hend⟩ := ih hs ht (List.cons.inj hrest).2
      exact ⟨rfl, hend⟩

theorem ElementType.reads_text : Reads text (Stops fun c => c != ',' && c != '>') := by
  refine .of_class (fun a b h => ?_) fun a => List.all_eq_true.1 ?_
  · cases a <;> cases b <;> simp [text] at h ⊢
  · cases a <;> rfl

theorem ElementType.stops_text (e : ElementType) (s : List Char) :
    Stops isNumeral (e.text.toList ++ s) := by
  cases e <;> exact stops_cons.2 rfl

def Layout.offsetText (offset : Option Int) : String := (offset.map Text.int).getD "?"

theorem Layout.text_strided (offset : Option Int) (strides : List Int) : (strided offset strides).text =
    ", strided<[" ++ ints strides ++ "], offset: " ++ offsetText offset ++ ">" := rfl

theorem Layout.reads_offsetText : Reads offsetText (Stops fun c => isNumeral c || c == '?') := by
  have hmark : ∀ n : Int, offsetText (some n) ≠ offsetText none := fun n he => by
    have hin : '?' ∈ (Text.int n).toList := (congrArg String.toList he).symm ▸ List.mem_singleton_self _
    cases isNumeral_of_mem_int hin
  refine .of_class (fun a b h => ?_) fun a c hc => ?_
  · cases a with
    | none =>
      cases b with
      | none => rfl
      | some n => exact absurd h.symm (hmark n)
    | some m =>
      cases b with
      | none => exact absurd h (hmark m)
      | some n => rw [int_injective h]
  · cases a with
    | none =>
      obtain rfl := List.mem_singleton.1 hc
      rfl
    | some n => rw [isNumeral_of_mem_int hc, Bool.true_or]

theorem MemorySpace.text_l2 : text .l2 = "1" := by decide

theorem MemorySpace.text_l1 : text .l1 = "2" := by decide

def MemorySpace.suffixText (space : MemorySpace) : String :=
  (if space = .global then "" else ", " ++ space.text) ++ ">"

theorem MemorySpace.reads_suffixText : Reads suffixText fun _ => True := by
  intro a b s t _ _ h
  cases a <;> cases b <;> simp [suffixText, text_l2, text_l1] at h ⊢ <;> exact h

def BufferType.suffixText (p : Layout × MemorySpace) : String := p.1.text ++ p.2.suffixText

theorem BufferType.reads_suffixText : Reads suffixText fun _ => True := by
  have hother : ∀ (space : MemorySpace) (p : Layout × MemorySpace) offset strides {s t : List Char},
      p.1 = .strided offset strides →
        (suffixText (.identity, space)).toList ++ s ≠ (suffixText p).toList ++ t := by
    rintro space ⟨_, space'⟩ offset strides s t rfl h
    cases space <;>
      simp [suffixText, Layout.text, MemorySpace.suffixText, MemorySpace.text_l2, MemorySpace.text_l1] at h
  rintro ⟨layout, space⟩ ⟨layout', space'⟩ s t - - h
  cases layout with
  | identity =>
    cases layout' with
    | identity =>
      obtain ⟨rfl, hrest⟩ := MemorySpace.reads_suffixText trivial trivial h
      exact ⟨rfl, hrest⟩
    | strided offset strides => exact absurd h (hother space _ offset strides rfl)
  | strided offset strides =>
    cases layout' with
    | identity => exact absurd h.symm (hother space' _ offset strides rfl)
    | strided offset' strides' =>
      simp only [suffixText, Layout.text_strided, String.toList_append, List.append_assoc] at h
      obtain ⟨rfl, h₁⟩ := reads_ints.between h (by simp [isClosing])
      obtain ⟨rfl, h₂⟩ := Layout.reads_offsetText.before h₁ (by simp [isNumeral])
      obtain ⟨rfl, hrest⟩ := MemorySpace.reads_suffixText trivial trivial h₂
      exact ⟨rfl, hrest⟩

theorem BufferType.reads_text : Reads text fun _ => True := by
  have htext : ∀ (type : BufferType) (s : List Char), type.text.toList ++ s = "memref<".toList ++
      (type.shape.prefixText.toList ++ (type.element.text.toList ++
        ((suffixText (type.layout, type.space)).toList ++ s))) := by
    intro type s
    simp [text, Shape.prefixText, suffixText, MemorySpace.suffixText]
  have hstops : ∀ (p : Layout × MemorySpace) (s : List Char),
      Stops (fun c => c != ',' && c != '>') ((suffixText p).toList ++ s) := by
    rintro ⟨layout, space⟩ s
    cases layout <;> cases space <;> simp [suffixText, Layout.text, MemorySpace.suffixText]
  intro a b s t _ _ h
  rw [htext, htext] at h
  obtain ⟨hshape, h⟩ := Shape.reads_prefixText.behind h (a.element.stops_text _) (b.element.stops_text _)
  obtain ⟨helement, h⟩ := ElementType.reads_text (hstops _ s) (hstops _ t) h
  obtain ⟨hsuffix, hrest⟩ := reads_suffixText trivial trivial h
  obtain ⟨shape, element, layout, space⟩ := a
  obtain ⟨shape', element', layout', space'⟩ := b
  cases hshape
  cases helement
  cases hsuffix
  exact ⟨rfl, hrest⟩

theorem ValueType.reads_text : Reads text fun _ => True := by
  intro a b s t _ _ h
  cases a <;> cases b
  · simpa [text] using h
  · simp [text, BufferType.text] at h
  · simp [text, BufferType.text] at h
  · obtain ⟨rfl, hrest⟩ := BufferType.reads_text trivial trivial h
    exact ⟨rfl, hrest⟩

end KernelLowering
