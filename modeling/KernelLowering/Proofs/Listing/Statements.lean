import KernelLowering.Proofs.Text.Names

namespace KernelLowering

open Text

namespace Statement

def target : Statement → Option Name
  | constant result _ | addIndex result _ _ => result
  | alloc result | view result _ | subView result _ _ _ _ => some result.name
  | _ => none

def keyword : Statement → String
  | constant _ _ => "arith.constant"
  | addIndex _ _ _ => "arith.addi"
  | alloc _ => "memref.alloc"
  | dealloc _ => "memref.dealloc"
  | view _ _ => "memref.view"
  | subView _ _ _ _ _ => "memref.subview"
  | copy _ _ => "linalg.copy"
  | kernel kind _ _ _ => kind.mnemonic
  | forLoop _ _ => "scf.for"
  | parallelLoop _ _ => "scf.parallel"
  | call _ _ => "call"
  | ret => "return"

section Pieces

theorem toList_constant (result : Option Name) (value : Int) : (constant result value).text.toList =
    (assignment result).toList ++ ("arith.constant".toList ++ (" ".toList ++ ((Text.int value).toList ++
      " : index".toList))) := by
  have h : (constant result value).text =
    assignment result ++ "arith.constant " ++ Text.int value ++ " : index" := rfl
  simp [h]

theorem toList_addIndex (result : Option Name) (lhs rhs : Name) : (addIndex result lhs rhs).text.toList =
    (assignment result).toList ++ ("arith.addi".toList ++ (" ".toList ++ (lhs.text.toList ++
      (", ".toList ++ (rhs.text.toList ++ " : index".toList))))) := by
  have h : (addIndex result lhs rhs).text =
    assignment result ++ "arith.addi " ++ lhs.text ++ ", " ++ rhs.text ++ " : index" := rfl
  simp [h]

theorem toList_alloc (result : Typed) : (alloc result).text.toList =
    (assignment (some result.name)).toList ++ ("memref.alloc".toList ++ ("() : ".toList ++
      result.type.text.toList)) := by
  have h : (alloc result).text = result.name.text ++ " = memref.alloc() : " ++ result.type.text := rfl
  simp [h, assignment]

theorem toList_dealloc (buffer : Typed) : (dealloc buffer).text.toList =
    (assignment none).toList ++ ("memref.dealloc".toList ++ (" ".toList ++ (buffer.name.text.toList ++
      (" : ".toList ++ buffer.type.text.toList)))) := by
  have h : (dealloc buffer).text =
    "memref.dealloc " ++ buffer.name.text ++ " : " ++ buffer.type.text := rfl
  simp [h, assignment]

theorem toList_view (result source : Typed) : (view result source).text.toList =
    (assignment (some result.name)).toList ++ ("memref.view".toList ++ (" ".toList ++
      (source.name.text.toList ++ ("[][] : ".toList ++ (source.type.text.toList ++ (" to ".toList ++
        result.type.text.toList)))))) := by
  have h : (view result source).text = result.name.text ++ " = memref.view " ++ source.name.text ++
    "[][] : " ++ source.type.text ++ " to " ++ result.type.text := rfl
  simp [h, assignment]

theorem toList_subView (result source : Typed) (offsets : List (SuppliedOffset Name)) (sizes : Shape)
    (strides : List Int) : (subView result source offsets sizes strides).text.toList =
    (assignment (some result.name)).toList ++ ("memref.subview".toList ++ (" ".toList ++
      (source.name.text.toList ++ ("[".toList ++ ((Text.commas (offsets.map (·.text))).toList ++
        ("] [".toList ++ ((Text.ints sizes).toList ++ ("] [".toList ++ ((Text.ints strides).toList ++
          ("] : ".toList ++ (source.type.text.toList ++ (" to ".toList ++
            result.type.text.toList)))))))))))) := by
  have h : (subView result source offsets sizes strides).text = result.name.text ++
    " = memref.subview " ++ source.name.text ++ "[" ++ Text.commas (offsets.map (·.text)) ++ "] [" ++
      Text.ints sizes ++ "] [" ++ Text.ints strides ++ "] : " ++ source.type.text ++ " to " ++
        result.type.text := rfl
  simp [h, assignment]

theorem toList_copy (source destination : Typed) : (copy source destination).text.toList =
    (assignment none).toList ++ ("linalg.copy".toList ++ ("(".toList ++ (source.name.text.toList ++
      (", ".toList ++ (destination.name.text.toList ++ (") : ".toList ++ (source.type.text.toList ++
        (", ".toList ++ destination.type.text.toList)))))))) := by
  have h : (copy source destination).text = "linalg.copy(" ++ source.name.text ++ ", " ++
    destination.name.text ++ ") : " ++ source.type.text ++ ", " ++ destination.type.text := rfl
  simp [h, assignment]

theorem toList_kernel (kind : KernelKind) (marker : Option Stage) (inputs : List Typed)
    (output : Typed) : (kernel kind marker inputs output).text.toList =
    (assignment none).toList ++ (kind.mnemonic.toList ++ ((markerText marker).toList ++
      (" ins(".toList ++ ((Typed.names inputs).toList ++ (" : ".toList ++
        ((Typed.types inputs).toList ++ (") outs(".toList ++ (output.name.text.toList ++
          (" : ".toList ++ (output.type.text.toList ++ ")".toList)))))))))) := by
  have h : (kernel kind marker inputs output).text = kind.mnemonic ++ markerText marker ++ " ins(" ++
    Typed.names inputs ++ " : " ++ Typed.types inputs ++ ") outs(" ++ output.name.text ++ " : " ++
      output.type.text ++ ")" := rfl
  simp [h, assignment]

theorem toList_forLoop (var : Name) (range : LoopRange) : (forLoop var range).text.toList =
    (assignment none).toList ++ ("scf.for".toList ++ (" ".toList ++ (var.text.toList ++
      (" = ".toList ++ ((Text.int range.lower).toList ++ (" to ".toList ++
        ((Text.int range.upper).toList ++ (" step ".toList ++ ((Text.int range.step).toList ++
          " \x7b".toList))))))))) := by
  have h : (forLoop var range).text = "scf.for " ++ var.text ++ " = " ++ Text.int range.lower ++
    " to " ++ Text.int range.upper ++ " step " ++ Text.int range.step ++ " \x7b" := rfl
  simp [h, assignment]

theorem toList_parallelLoop (vars : List Name) (ranges : List LoopRange) :
    (parallelLoop vars ranges).text.toList =
    (assignment none).toList ++ ("scf.parallel".toList ++ (" (".toList ++
      ((Text.commas (vars.map (·.text))).toList ++ (") = (".toList ++
        ((Text.ints (ranges.map (·.lower))).toList ++ (") to (".toList ++
          ((Text.ints (ranges.map (·.upper))).toList ++ (") step (".toList ++
            ((Text.ints (ranges.map (·.step))).toList ++ ") \x7b".toList))))))))) := by
  have h : (parallelLoop vars ranges).text = "scf.parallel (" ++ Text.commas (vars.map (·.text)) ++
    ") = " ++ boundsText ranges (·.lower) ++ " to " ++ boundsText ranges (·.upper) ++ " step " ++
      boundsText ranges (·.step) ++ " \x7b" := rfl
  simp [h, assignment, boundsText]

theorem toList_call (callee : String) (arguments : List Typed) : (call callee arguments).text.toList =
    (assignment none).toList ++ ("call".toList ++ (" @".toList ++ (callee.toList ++ ("(".toList ++
      ((Typed.names arguments).toList ++ (") : (".toList ++ ((Typed.types arguments).toList ++
        ") -> ()".toList))))))) := by
  have h : (call callee arguments).text = "call @" ++ callee ++ "(" ++ Typed.names arguments ++
    ") : (" ++ Typed.types arguments ++ ") -> ()" := rfl
  simp [h, assignment]

theorem toList_ret : ret.text.toList = (assignment none).toList ++ ("return".toList ++ []) := by
  have h : ret.text = "return" := rfl
  simp [h, assignment]

end Pieces

section Parts

variable {s t : List Char}

def isKeywordChar (c : Char) : Bool := isIdentifierChar c || c == '.'

theorem isKeywordChar_of_mem_keyword (a : Statement) : ∀ c ∈ a.keyword.toList, isKeywordChar c = true := by
  refine List.all_eq_true.1 ?_
  cases a with
  | kernel kind => cases kind <;> simp only [keyword, KernelKind.mnemonic] <;> decide
  | _ => simp only [keyword]; decide

theorem stops_keyword (a : Statement) (s : List Char) : Stops (· == '%') (a.keyword.toList ++ s) := by
  cases a with
  | kernel kind => cases kind <;> simp [keyword, KernelKind.mnemonic]
  | _ => simp [keyword]

theorem stops_markerText (marker : Option Stage) (s : List Char) :
    Stops isKeywordChar ((markerText marker).toList ++ ' ' :: s) := by
  cases marker <;> simp [markerText, isKeywordChar, isIdentifierChar]

theorem exists_tail (a : Statement) : ∃ tail,
    a.text.toList = (assignment a.target).toList ++ (a.keyword.toList ++ tail) ∧
      ∀ s, Stops isKeywordChar (tail ++ '\n' :: s) := by
  cases a with
  | constant result value => exact ⟨_, toList_constant .., by simp [isKeywordChar, isIdentifierChar]⟩
  | addIndex result lhs rhs => exact ⟨_, toList_addIndex .., by simp [isKeywordChar, isIdentifierChar]⟩
  | alloc result => exact ⟨_, toList_alloc .., by simp [isKeywordChar, isIdentifierChar]⟩
  | dealloc buffer => exact ⟨_, toList_dealloc .., by simp [isKeywordChar, isIdentifierChar]⟩
  | view result source => exact ⟨_, toList_view .., by simp [isKeywordChar, isIdentifierChar]⟩
  | subView result source offsets sizes strides =>
    exact ⟨_, toList_subView .., by simp [isKeywordChar, isIdentifierChar]⟩
  | copy source destination => exact ⟨_, toList_copy .., by simp [isKeywordChar, isIdentifierChar]⟩
  | kernel kind marker inputs output =>
    refine ⟨_, toList_kernel .., fun s => ?_⟩
    simpa using stops_markerText marker _
  | forLoop var range => exact ⟨_, toList_forLoop .., by simp [isKeywordChar, isIdentifierChar]⟩
  | parallelLoop vars ranges => exact ⟨_, toList_parallelLoop .., by simp [isKeywordChar, isIdentifierChar]⟩
  | call callee arguments => exact ⟨_, toList_call .., by simp [isKeywordChar, isIdentifierChar]⟩
  | ret => exact ⟨_, toList_ret, by simp [isKeywordChar, isIdentifierChar]⟩

theorem reads_assignment : Reads assignment (Stops (· == '%')) := by
  have hnone : (assignment none).toList = [] := by simp [assignment]
  have hsome : ∀ (v : Name) s, (assignment (some v)).toList ++ s = v.text.toList ++ (" = ".toList ++ s) := by
    simp [assignment]
  have hother : ∀ {v : Name} {s t : List Char}, Stops (· == '%') s → s ≠ (assignment (some v)).toList ++ t := by
    intro v s t hs he
    obtain ⟨rest, hv⟩ := v.text_eq_cons
    rw [hsome, hv] at he
    subst he
    exact absurd (stops_cons.1 hs) (by decide)
  intro a b s t hs ht h
  cases a with
  | none =>
    cases b with
    | none => exact ⟨rfl, by simpa [hnone] using h⟩
    | some v => exact absurd (by simpa [hnone] using h) (hother hs)
  | some u =>
    cases b with
    | none => exact absurd (by simpa [hnone] using h.symm) (hother ht)
    | some v =>
      rw [hsome, hsome] at h
      obtain ⟨rfl, hrest⟩ := Name.reads_text.before h fun _ => by simp [isNameChar, isNameEnd]
      exact ⟨rfl, hrest⟩

def opensInputs (s : List Char) : Prop := ∃ rest, s = " ins(".toList ++ rest

theorem reads_markerText : Reads markerText opensInputs := by
  have hstage : Reads Stage.text (Stops (· != '"')) := by
    refine .of_class (fun a b h => ?_) fun a => List.all_eq_true.1 ?_
    · cases a <;> cases b <;> simp [Stage.text] at h ⊢
    · cases a <;> rfl
  have hsome : ∀ (stage : Stage) s, (markerText (some stage)).toList ++ s =
      " \x7bmarker = \"".toList ++ (stage.text.toList ++ ("\"\x7d".toList ++ s)) := by
    simp [markerText]
  rintro a b _ _ ⟨s, rfl⟩ ⟨t, rfl⟩ h
  cases a with
  | none =>
    cases b with
    | none => exact ⟨rfl, h⟩
    | some stage => simp [markerText] at h
  | some stage =>
    cases b with
    | none => simp [markerText] at h
    | some stage' =>
      rw [hsome, hsome] at h
      obtain ⟨rfl, hrest⟩ := hstage.between h (by simp)
      exact ⟨rfl, hrest⟩

def Identified : Statement → Prop
  | call callee _ => isIdentifier callee = true
  | _ => True

theorem reads_head {a b : Statement} (h : a.text.toList ++ '\n' :: s = b.text.toList ++ '\n' :: t) :
    a.target = b.target ∧ a.keyword = b.keyword := by
  obtain ⟨u, ha, hu⟩ := a.exists_tail
  obtain ⟨v, hb, hv⟩ := b.exists_tail
  rw [ha, hb] at h
  simp only [List.append_assoc] at h
  obtain ⟨htarget, hkeyword⟩ := reads_assignment (a.stops_keyword _) (b.stops_keyword _) h
  obtain ⟨hlist, -⟩ := eq_of_append_eq a.isKeywordChar_of_mem_keyword b.isKeywordChar_of_mem_keyword
    (hu s) (hv t) hkeyword
  exact ⟨htarget, String.toList_injective hlist⟩

theorem cancel_head {p q u v : List Char} (h : (p ++ (q ++ u)) ++ s = (p ++ (q ++ v)) ++ t) :
    u ++ s = v ++ t := by
  simpa using h

theorem reads_end (h : '\n' :: s = '\n' :: t) : s = t := (List.cons.inj h).2

end Parts

section Forms

variable {s t : List Char}

theorem constant_reads {result result' : Option Name} {value value' : Int}
    (h : (constant result value).text.toList ++ '\n' :: s =
      (constant result' value').text.toList ++ '\n' :: t) :
    constant result value = constant result' value' ∧ s = t := by
  obtain rfl : result = result' := (reads_head h).1
  rw [toList_constant, toList_constant] at h
  have h₁ := cancel_head h
  simp only [List.append_assoc] at h₁
  obtain ⟨rfl, h₂⟩ := reads_int.between h₁ (by simp [isNumeral])
  exact ⟨rfl, reads_end h₂⟩

theorem addIndex_reads {result result' : Option Name} {lhs rhs lhs' rhs' : Name}
    (h : (addIndex result lhs rhs).text.toList ++ '\n' :: s =
      (addIndex result' lhs' rhs').text.toList ++ '\n' :: t) :
    addIndex result lhs rhs = addIndex result' lhs' rhs' ∧ s = t := by
  obtain rfl : result = result' := (reads_head h).1
  rw [toList_addIndex, toList_addIndex] at h
  have h₁ := cancel_head h
  simp only [List.append_assoc] at h₁
  obtain ⟨rfl, h₂⟩ := Name.reads_text.between h₁ (by simp [isNameChar, isNameEnd])
  obtain ⟨rfl, h₃⟩ := Name.reads_text.before h₂ (by simp [isNameChar, isNameEnd])
  exact ⟨rfl, reads_end h₃⟩

theorem alloc_reads {result result' : Typed}
    (h : (alloc result).text.toList ++ '\n' :: s = (alloc result').text.toList ++ '\n' :: t) :
    alloc result = alloc result' ∧ s = t := by
  have hname := (reads_head h).1
  rw [toList_alloc, toList_alloc, show result.name = result'.name from Option.some.inj hname] at h
  have h₁ := cancel_head h
  simp only [List.append_assoc] at h₁
  obtain ⟨htype, h₂⟩ := ValueType.reads_text.behind h₁ trivial trivial
  exact ⟨congrArg alloc (Typed.ext (Option.some.inj hname) htype), reads_end h₂⟩

theorem dealloc_reads {buffer buffer' : Typed}
    (h : (dealloc buffer).text.toList ++ '\n' :: s = (dealloc buffer').text.toList ++ '\n' :: t) :
    dealloc buffer = dealloc buffer' ∧ s = t := by
  rw [toList_dealloc, toList_dealloc] at h
  have h₁ := cancel_head h
  simp only [List.append_assoc] at h₁
  obtain ⟨hname, h₂⟩ := Name.reads_text.between h₁ (by simp [isNameChar, isNameEnd])
  obtain ⟨htype, h₃⟩ := ValueType.reads_text trivial trivial h₂
  exact ⟨congrArg dealloc (Typed.ext hname htype), reads_end h₃⟩

theorem view_reads {result source result' source' : Typed}
    (h : (view result source).text.toList ++ '\n' :: s =
      (view result' source').text.toList ++ '\n' :: t) :
    view result source = view result' source' ∧ s = t := by
  have hname := Option.some.inj (reads_head h).1
  rw [toList_view, toList_view, hname] at h
  have h₁ := cancel_head h
  simp only [List.append_assoc] at h₁
  obtain ⟨hsource, h₂⟩ := Name.reads_text.between h₁ (by simp [isNameChar, isNameEnd])
  obtain ⟨hsourceType, h₃⟩ := ValueType.reads_text.before h₂ fun _ => trivial
  obtain ⟨htype, h₄⟩ := ValueType.reads_text trivial trivial h₃
  exact ⟨congrArg₂ view (Typed.ext hname htype) (Typed.ext hsource hsourceType), reads_end h₄⟩

theorem subView_reads {result source result' source' : Typed}
    {offsets offsets' : List (SuppliedOffset Name)} {sizes sizes' : Shape} {strides strides' : List Int}
    (h : (subView result source offsets sizes strides).text.toList ++ '\n' :: s =
      (subView result' source' offsets' sizes' strides').text.toList ++ '\n' :: t) :
    subView result source offsets sizes strides = subView result' source' offsets' sizes' strides' ∧
      s = t := by
  have hname := Option.some.inj (reads_head h).1
  rw [toList_subView, toList_subView, hname] at h
  have h₁ := cancel_head h
  simp only [List.append_assoc] at h₁
  obtain ⟨hsource, h₂⟩ := Name.reads_text.between h₁ (by simp [isNameChar, isNameEnd])
  obtain ⟨rfl, h₃⟩ := SuppliedOffset.reads_all.before h₂ (by simp [isClosing])
  obtain ⟨rfl, h₄⟩ := reads_ints.before h₃ (by simp [isClosing])
  obtain ⟨rfl, h₅⟩ := reads_ints.before h₄ (by simp [isClosing])
  obtain ⟨hsourceType, h₆⟩ := ValueType.reads_text.before h₅ fun _ => trivial
  obtain ⟨htype, h₇⟩ := ValueType.reads_text trivial trivial h₆
  rw [Typed.ext hname htype, Typed.ext hsource hsourceType]
  exact ⟨rfl, reads_end h₇⟩

theorem copy_reads {source destination source' destination' : Typed}
    (h : (copy source destination).text.toList ++ '\n' :: s =
      (copy source' destination').text.toList ++ '\n' :: t) :
    copy source destination = copy source' destination' ∧ s = t := by
  rw [toList_copy, toList_copy] at h
  have h₁ := cancel_head h
  simp only [List.append_assoc] at h₁
  obtain ⟨hsource, h₂⟩ := Name.reads_text.between h₁ (by simp [isNameChar, isNameEnd])
  obtain ⟨hdestination, h₃⟩ := Name.reads_text.before h₂ (by simp [isNameChar, isNameEnd])
  obtain ⟨hsourceType, h₄⟩ := ValueType.reads_text.before h₃ fun _ => trivial
  obtain ⟨htype, h₅⟩ := ValueType.reads_text trivial trivial h₄
  exact ⟨congrArg₂ copy (Typed.ext hsource hsourceType) (Typed.ext hdestination htype), reads_end h₅⟩

theorem kernel_reads {kind kind' : KernelKind} {marker marker' : Option Stage}
    {inputs inputs' : List Typed} {output output' : Typed}
    (h : (kernel kind marker inputs output).text.toList ++ '\n' :: s =
      (kernel kind' marker' inputs' output').text.toList ++ '\n' :: t) :
    kernel kind marker inputs output = kernel kind' marker' inputs' output' ∧ s = t := by
  obtain rfl : kind = kind' := by
    have hmnemonic : kind.mnemonic = kind'.mnemonic := (reads_head h).2
    cases kind <;> cases kind' <;> simp [KernelKind.mnemonic] at hmnemonic ⊢
  simp only [toList_kernel, Typed.names_eq, Typed.types_eq] at h
  have h₁ := cancel_head h
  simp only [List.append_assoc] at h₁
  obtain ⟨rfl, h₂⟩ := reads_markerText ⟨_, rfl⟩ ⟨_, rfl⟩ h₁
  obtain ⟨hnames, h₃⟩ := Name.reads_all.between h₂ (by simp [isClosing])
  obtain ⟨htypes, h₄⟩ := ValueType.reads_all.before h₃ (by simp [isClosing])
  obtain ⟨houtput, h₅⟩ := Name.reads_text.before h₄ (by simp [isNameChar, isNameEnd])
  obtain ⟨htype, h₆⟩ := ValueType.reads_text.before h₅ fun _ => trivial
  rw [Typed.eq_of_names_types hnames htypes, Typed.ext houtput htype]
  exact ⟨rfl, reads_end h₆⟩

theorem forLoop_reads {var var' : Name} {range range' : LoopRange}
    (h : (forLoop var range).text.toList ++ '\n' :: s = (forLoop var' range').text.toList ++ '\n' :: t) :
    forLoop var range = forLoop var' range' ∧ s = t := by
  rw [toList_forLoop, toList_forLoop] at h
  have h₁ := cancel_head h
  simp only [List.append_assoc] at h₁
  obtain ⟨rfl, h₂⟩ := Name.reads_text.between h₁ (by simp [isNameChar, isNameEnd])
  obtain ⟨hlower, h₃⟩ := reads_int.before h₂ (by simp [isNumeral])
  obtain ⟨hupper, h₄⟩ := reads_int.before h₃ (by simp [isNumeral])
  obtain ⟨hstep, h₅⟩ := reads_int.before h₄ (by simp [isNumeral])
  rw [LoopRange.ext hlower hupper hstep]
  exact ⟨rfl, reads_end h₅⟩

theorem parallelLoop_reads {vars vars' : List Name} {ranges ranges' : List LoopRange}
    (h : (parallelLoop vars ranges).text.toList ++ '\n' :: s =
      (parallelLoop vars' ranges').text.toList ++ '\n' :: t) :
    parallelLoop vars ranges = parallelLoop vars' ranges' ∧ s = t := by
  rw [toList_parallelLoop, toList_parallelLoop] at h
  have h₁ := cancel_head h
  simp only [List.append_assoc] at h₁
  obtain ⟨rfl, h₂⟩ := Name.reads_all.between h₁ (by simp [isClosing])
  obtain ⟨hlower, h₃⟩ := reads_ints.before h₂ (by simp [isClosing])
  obtain ⟨hupper, h₄⟩ := reads_ints.before h₃ (by simp [isClosing])
  obtain ⟨hstep, h₅⟩ := reads_ints.before h₄ (by simp [isClosing])
  rw [LoopRange.eq_of_bounds hlower hupper hstep]
  exact ⟨rfl, reads_end h₅⟩

theorem call_reads {callee callee' : String} {arguments arguments' : List Typed}
    (hcallee : isIdentifier callee = true) (hcallee' : isIdentifier callee' = true)
    (h : (call callee arguments).text.toList ++ '\n' :: s =
      (call callee' arguments').text.toList ++ '\n' :: t) :
    call callee arguments = call callee' arguments' ∧ s = t := by
  simp only [toList_call, Typed.names_eq, Typed.types_eq] at h
  have h₁ := cancel_head h
  simp only [List.append_assoc] at h₁
  obtain ⟨rfl, h₂⟩ := isIdentifier_reads hcallee hcallee' (by simp [isIdentifierChar])
    (by simp [isIdentifierChar]) (List.append_cancel_left h₁)
  obtain ⟨hnames, h₃⟩ := Name.reads_all.between h₂ (by simp [isClosing])
  obtain ⟨htypes, h₄⟩ := ValueType.reads_all.before h₃ (by simp [isClosing])
  rw [Typed.eq_of_names_types hnames htypes]
  exact ⟨rfl, reads_end h₄⟩

theorem mnemonic_eq_iff {kind : KernelKind} {text : String} : kind.mnemonic = text ↔
    kind = .matmul ∧ "linalg.matmul" = text ∨ kind = .conv2d ∧ "linalg.conv_2d_nchw" = text := by
  cases kind <;> simp [KernelKind.mnemonic]

theorem eq_mnemonic_iff {kind : KernelKind} {text : String} : text = kind.mnemonic ↔
    kind = .matmul ∧ "linalg.matmul" = text ∨ kind = .conv2d ∧ "linalg.conv_2d_nchw" = text := by
  rw [eq_comm, mnemonic_eq_iff]

theorem text_reads {a b : Statement} (ha : a.Identified) (hb : b.Identified)
    (h : a.text.toList ++ '\n' :: s = b.text.toList ++ '\n' :: t) : a = b ∧ s = t := by
  have hkeyword := (reads_head h).2
  cases a with
  | constant => cases b with
    | constant => exact constant_reads h
    | _ => simp [keyword, eq_mnemonic_iff] at hkeyword
  | addIndex => cases b with
    | addIndex => exact addIndex_reads h
    | _ => simp [keyword, eq_mnemonic_iff] at hkeyword
  | alloc => cases b with
    | alloc => exact alloc_reads h
    | _ => simp [keyword, eq_mnemonic_iff] at hkeyword
  | dealloc => cases b with
    | dealloc => exact dealloc_reads h
    | _ => simp [keyword, eq_mnemonic_iff] at hkeyword
  | view => cases b with
    | view => exact view_reads h
    | _ => simp [keyword, eq_mnemonic_iff] at hkeyword
  | subView => cases b with
    | subView => exact subView_reads h
    | _ => simp [keyword, eq_mnemonic_iff] at hkeyword
  | copy => cases b with
    | copy => exact copy_reads h
    | _ => simp [keyword, eq_mnemonic_iff] at hkeyword
  | kernel => cases b with
    | kernel => exact kernel_reads h
    | _ => simp [keyword, mnemonic_eq_iff] at hkeyword
  | forLoop => cases b with
    | forLoop => exact forLoop_reads h
    | _ => simp [keyword, eq_mnemonic_iff] at hkeyword
  | parallelLoop => cases b with
    | parallelLoop => exact parallelLoop_reads h
    | _ => simp [keyword, eq_mnemonic_iff] at hkeyword
  | call => cases b with
    | call => exact call_reads ha hb h
    | _ => simp [keyword, eq_mnemonic_iff] at hkeyword
  | ret => cases b with
    | ret => exact ⟨rfl, reads_end (List.append_cancel_left h)⟩
    | _ => simp [keyword, eq_mnemonic_iff] at hkeyword

end Forms

end Statement

end KernelLowering
