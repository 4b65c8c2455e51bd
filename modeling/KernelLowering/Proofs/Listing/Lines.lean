import KernelLowering.Proofs.Arena.Spine
import KernelLowering.Proofs.Listing.Statements
import KernelLowering.Proofs.Yields

namespace KernelLowering

open Text

variable {s t : List Char}

namespace Listing

def Proper : Listing → Prop
  | nil => True
  | line statement body rest =>
    statement.Identified ∧ (statement.opensBlock = true ∨ body = nil) ∧ body.Proper ∧ rest.Proper

def blockText (depth : Nat) (statement : Statement) (body : Listing) : String :=
  if statement.opensBlock then body.text (depth + 1) ++ margin depth ++ "\x7d\n" else ""

theorem text_line (depth : Nat) (statement : Statement) (body rest : Listing) :
    (line statement body rest).text depth = margin depth ++ statement.text ++ "\n" ++
      blockText depth statement body ++ rest.text depth := rfl

theorem toList_text_line (depth : Nat) (statement : Statement) (body rest : Listing) :
    ((line statement body rest).text depth).toList ++ s = (margin depth).toList ++
      (statement.text.toList ++ '\n' :: ((blockText depth statement body).toList ++
        ((rest.text depth).toList ++ s))) := by
  simp [text_line]

theorem toList_blockText {depth : Nat} {statement : Statement} {body : Listing}
    (h : statement.opensBlock = true) : (blockText depth statement body).toList ++ s =
      (body.text (depth + 1)).toList ++ ((margin depth).toList ++ '\x7d' :: '\n' :: s) := by
  simp [blockText, h]

theorem blockText_of_not_opensBlock {depth : Nat} {statement : Statement} {body : Listing}
    (h : statement.opensBlock = false) : (blockText depth statement body).toList ++ s = s := by
  simp [blockText, h]

theorem toList_margin (depth : Nat) : (margin depth).toList = List.replicate (2 * depth) ' ' := by
  have hpush : ∀ n, ("".pushn ' ' n).toList = List.replicate n ' ' := fun n => by
    induction n with
    | zero => rfl
    | succ n ih =>
      have hstep : "".pushn ' ' (n + 1) = ("".pushn ' ' n).push ' ' := rfl
      rw [hstep, String.toList_push, ih, List.replicate_succ']
  exact hpush (2 * depth)

theorem text_line_ne_close {depth : Nat} {statement : Statement} {body rest : Listing} :
    ((line statement body rest).text (depth + 1)).toList ++ s ≠ (margin depth).toList ++ '\x7d' :: t := by
  intro h
  rw [toList_text_line, toList_margin, toList_margin, Nat.mul_succ, ← List.replicate_append_replicate,
    List.append_assoc] at h
  have hclose := List.append_cancel_left h
  simp [List.replicate] at hclose

theorem text_reads {a b : Listing} (ha : a.Proper) (hb : b.Proper) {depth : Nat}
    (h : (a.text (depth + 1)).toList ++ ((margin depth).toList ++ '\x7d' :: s) =
      (b.text (depth + 1)).toList ++ ((margin depth).toList ++ '\x7d' :: t)) : a = b ∧ s = t := by
  induction a generalizing b depth s t with
  | nil =>
    cases b with
    | nil => exact ⟨rfl, (List.cons.inj (List.append_cancel_left h)).2⟩
    | line => exact absurd h.symm text_line_ne_close
  | line statement body rest ihb ihr =>
    cases b with
    | nil => exact absurd h text_line_ne_close
    | line statement' body' rest' =>
      rw [toList_text_line, toList_text_line] at h
      obtain ⟨rfl, h₁⟩ := Statement.text_reads ha.1 hb.1 (List.append_cancel_left h)
      cases hopens : statement.opensBlock with
      | true =>
        rw [toList_blockText hopens, toList_blockText hopens] at h₁
        obtain ⟨rfl, h₂⟩ := ihb ha.2.2.1 hb.2.2.1 h₁
        obtain ⟨rfl, h₃⟩ := ihr ha.2.2.2 hb.2.2.2 (Statement.reads_end h₂)
        exact ⟨rfl, h₃⟩
      | false =>
        rw [blockText_of_not_opensBlock hopens, blockText_of_not_opensBlock hopens] at h₁
        obtain ⟨rfl, h₂⟩ := ihr ha.2.2.2 hb.2.2.2 h₁
        obtain rfl : body = .nil := ha.2.1.resolve_left (by simp [hopens])
        obtain rfl : body' = .nil := hb.2.1.resolve_left (by simp [hopens])
        exact ⟨rfl, h₂⟩

end Listing

def Typed.declaration (a : Typed) : String := a.name.text ++ ": " ++ a.type.text

theorem Typed.reads_declarations :
    Reads (fun parameters : List Typed => commas (parameters.map declaration)) Closes := by
  have h : Reads declaration (Stops fun _ => false) := by
    intro a b s t _ _ he
    simp only [declaration, String.toList_append, List.append_assoc] at he
    obtain ⟨hname, h₁⟩ := Name.reads_text.before he (by simp [isNameChar, isNameEnd])
    obtain ⟨htype, h₂⟩ := ValueType.reads_text trivial trivial h₁
    exact ⟨ext hname htype, h₂⟩
  refine .commas rfl (fun _ _ => rfl) h fun a => ?_
  obtain ⟨rest, hname⟩ := a.name.text_eq_cons
  exact ⟨'%', _, by simp only [declaration, String.toList_append, hname]; rfl, rfl⟩

def Listing.functionText (name : String) (parameters : List Typed) (body : Listing) : String :=
  "func @" ++ name ++ "(" ++ commas (parameters.map Typed.declaration) ++ ") \x7b\n" ++ body.text 1 ++
    "\x7d\n"

theorem Listing.functionText_injective {name name' : String} {parameters parameters' : List Typed}
    {a b : Listing} (hname : isIdentifier name = true) (hname' : isIdentifier name' = true)
    (ha : a.Proper) (hb : b.Proper)
    (h : functionText name parameters a = functionText name' parameters' b) :
    name = name' ∧ parameters = parameters' ∧ a = b := by
  have hlist := congrArg String.toList h
  simp only [functionText, String.toList_append, List.append_assoc] at hlist
  obtain ⟨rfl, h₁⟩ := isIdentifier_reads hname hname' (by simp [isIdentifierChar])
    (by simp [isIdentifierChar]) (List.append_cancel_left hlist)
  obtain ⟨rfl, h₂⟩ := Typed.reads_declarations.between h₁ (by simp [isClosing])
  have hbody : (a.text (0 + 1)).toList ++ ((margin 0).toList ++ '\x7d' :: ['\n']) =
    (b.text (0 + 1)).toList ++ ((margin 0).toList ++ '\x7d' :: ['\n']) := h₂
  obtain ⟨rfl, -⟩ := text_reads ha hb hbody
  exact ⟨rfl, rfl, rfl⟩

namespace SuppliedOffset

variable {α : Type}

def source? : SuppliedOffset α → Option α
  | supplied source => some source
  | static _ | missing => none

theorem filterMap_source_supply {offsets : List Offset} {sources : List α}
    (h : sources.length ≤ offsets.count .dynamic) :
    (Offset.supply offsets sources).filterMap source? = sources := by
  fun_induction Offset.supply offsets sources <;> simp_all [source?, List.filterMap_cons]

theorem supply_injective {offsets offsets' : List Offset} {sources sources' : List α}
    (h : sources.length ≤ offsets.count .dynamic) (h' : sources'.length ≤ offsets'.count .dynamic)
    (hsupply : Offset.supply offsets sources = Offset.supply offsets' sources') :
    offsets = offsets' ∧ sources = sources' := by
  constructor
  · rw [← map_offset_supply offsets sources, hsupply, map_offset_supply]
  · rw [← filterMap_source_supply h, hsupply, filterMap_source_supply h']

end SuppliedOffset

namespace OpKind

def showsOperands : OpKind → Nat → Bool
  | constant _, n | alloc, n | forLoop _, n | parallelLoop _, n | ret, n => n == 0
  | dealloc, n | view, n => n == 1
  | addIndex, n | copy, n => n == 2
  | subView window, n => 0 < n && n ≤ window.dynamicCount + 1
  | kernel _, n => 0 < n
  | call _, _ => true

def showsResult : OpKind → Option ValueType → Bool
  | constant _, type | addIndex, type => type = none || type = some .index
  | alloc, type | view, type | subView _, type => type.isSome
  | _, type => type.isNone

end OpKind

inductive Line : OpKind → List Typed → Option Typed → Option Stage → List Name → Statement → Prop
  | constant (value : Int) {result : Option Typed} (h : ∀ r ∈ result, r.type = .index) :
      Line (.constant value) [] result none [] (.constant (result.map (·.name)) value)
  | addIndex (lhs rhs : Typed) {result : Option Typed} (h : ∀ r ∈ result, r.type = .index) :
      Line .addIndex [lhs, rhs] result none [] (.addIndex (result.map (·.name)) lhs.name rhs.name)
  | alloc (result : Typed) : Line .alloc [] (some result) none [] (.alloc result)
  | dealloc (buffer : Typed) : Line .dealloc [buffer] none none [] (.dealloc buffer)
  | view (result source : Typed) : Line .view [source] (some result) none [] (.view result source)
  | subView (window : Window) (result source : Typed) {offsets : List Typed}
      (h : offsets.length ≤ window.dynamicCount) :
      Line (.subView window) (source :: offsets) (some result) none []
        (.subView result source (Offset.supply window.offsets (offsets.map (·.name))) window.sizes
          window.strides)
  | copy (source destination : Typed) :
      Line .copy [source, destination] none none [] (.copy source destination)
  | kernel (kind : KernelKind) (marker : Option Stage) (inputs : List Typed) (output : Typed) :
      Line (.kernel kind) (inputs ++ [output]) none marker [] (.kernel kind marker inputs output)
  | forLoop (var : Name) (range : LoopRange) :
      Line (.forLoop range) [] none none [var] (.forLoop var range)
  | parallelLoop (vars : List Name) (ranges : List LoopRange) :
      Line (.parallelLoop ranges) [] none none vars (.parallelLoop vars ranges)
  | call (callee : String) (arguments : List Typed) :
      Line (.call callee) arguments none none [] (.call callee arguments)
  | ret : Line .ret [] none none [] .ret

namespace Line

variable {kind kind' : OpKind} {operands operands' : List Typed} {result result' : Option Typed}
  {marker marker' : Option Stage} {vars vars' : List Name} {s : Statement}

theorem result_eq (h : ∀ r ∈ result, r.type = .index) (h' : ∀ r ∈ result', r.type = .index)
    (hname : result.map (·.name) = result'.map (·.name)) : result = result' := by
  cases result with
  | none => exact (Option.map_eq_none_iff.1 hname.symm).symm
  | some r =>
    cases result' with
    | none => cases hname
    | some r' => rw [Typed.ext (Option.some.inj hname) ((h r rfl).trans (h' r' rfl).symm)]

theorem inj (h : Line kind operands result marker vars s)
    (h' : Line kind' operands' result' marker' vars' s) :
    kind = kind' ∧ operands.map (·.name) = operands'.map (·.name) ∧ result = result' ∧
      marker = marker' ∧ vars = vars' := by
  cases h with
  | constant value htype =>
    generalize hs : Statement.constant _ _ = s at h'
    cases h' with
    | constant value' htype' =>
      obtain ⟨hname, rfl⟩ := Statement.constant.inj hs
      exact ⟨rfl, rfl, result_eq htype htype' hname, rfl, rfl⟩
    | _ => cases hs
  | addIndex lhs rhs htype =>
    generalize hs : Statement.addIndex _ _ _ = s at h'
    cases h' with
    | addIndex lhs' rhs' htype' =>
      obtain ⟨hname, hlhs, hrhs⟩ := Statement.addIndex.inj hs
      exact ⟨rfl, by simp [hlhs, hrhs], result_eq htype htype' hname, rfl, rfl⟩
    | _ => cases hs
  | subView window result source hlen =>
    generalize hs : Statement.subView _ _ _ _ _ = s at h'
    cases h' with
    | subView window' result' source' hlen' =>
      obtain ⟨rfl, rfl, hsupply, hsizes, hstrides⟩ := Statement.subView.inj hs
      obtain ⟨hoffsets, hnames⟩ := SuppliedOffset.supply_injective ((List.length_map _).trans_le hlen)
        ((List.length_map _).trans_le hlen') hsupply
      obtain ⟨offsets, sizes, strides⟩ := window
      obtain ⟨offsets', sizes', strides'⟩ := window'
      cases hoffsets
      cases hsizes
      cases hstrides
      exact ⟨rfl, congrArg (source.name :: ·) hnames, rfl, rfl, rfl⟩
    | _ => cases hs
  | _ =>
    cases h'
    exact ⟨rfl, rfl, rfl, rfl, rfl⟩

theorem unique {s' : Statement} (h : Line kind operands result marker vars s)
    (h' : Line kind operands result marker vars s') : s = s' := by
  cases h with
  | kernel kind marker inputs output =>
    generalize hops : inputs ++ [output] = operands at h'
    cases h' with
    | kernel kind marker inputs' output' =>
      obtain ⟨rfl, houtput⟩ := List.append_inj' hops rfl
      cases houtput
      rfl
  | _ =>
    cases h'
    rfl

theorem exists_line (hoperands : kind.showsOperands operands.length = true)
    (hresult : kind.showsResult (result.map (·.type)) = true)
    (hmarker : marker = none ∨ ∃ k, kind = .kernel k) (hvars : vars.length = kind.loopRanges.length) :
    ∃ s, Line kind operands result marker vars s := by
  have hindex : (result = none ∨ ∃ a, result = some a ∧ a.type = .index) → ∀ r ∈ result, r.type = .index := by
    rintro (rfl | ⟨a, rfl, ha⟩) r hr
    · cases hr
    · rwa [← Option.some.inj hr]
  cases kind <;> simp only [OpKind.showsOperands, OpKind.showsResult, OpKind.loopRanges, beq_iff_eq,
    List.length_eq_zero_iff, List.length_eq_one_iff, List.length_eq_two, Option.map_eq_none_iff,
    Option.map_eq_some_iff, Option.isSome_map, Option.isNone_map, Option.isSome_iff_exists,
    Option.isNone_iff_eq_none, List.length_nil, List.length_singleton, Bool.and_eq_true, Bool.or_eq_true,
    decide_eq_true_eq, reduceCtorEq, exists_false, or_false] at hoperands hresult hmarker hvars
  case constant value =>
    subst hoperands hmarker hvars
    exact ⟨_, .constant value (hindex hresult)⟩
  case addIndex =>
    obtain ⟨a, b, rfl⟩ := hoperands
    subst hmarker hvars
    exact ⟨_, .addIndex a b (hindex hresult)⟩
  case alloc =>
    obtain ⟨r, rfl⟩ := hresult
    subst hoperands hmarker hvars
    exact ⟨_, .alloc r⟩
  case dealloc =>
    obtain ⟨a, rfl⟩ := hoperands
    subst hresult hmarker hvars
    exact ⟨_, .dealloc a⟩
  case view =>
    obtain ⟨a, rfl⟩ := hoperands
    obtain ⟨r, rfl⟩ := hresult
    subst hmarker hvars
    exact ⟨_, .view r a⟩
  case subView window =>
    obtain ⟨a, offsets, rfl⟩ := List.exists_cons_of_length_pos hoperands.1
    obtain ⟨r, rfl⟩ := hresult
    subst hmarker hvars
    exact ⟨_, .subView window r a (Nat.le_of_succ_le_succ hoperands.2)⟩
  case copy =>
    obtain ⟨a, b, rfl⟩ := hoperands
    subst hresult hmarker hvars
    exact ⟨_, .copy a b⟩
  case kernel kind =>
    rw [← List.dropLast_append_getLast (List.length_pos_iff.1 hoperands)]
    subst hresult hvars
    exact ⟨_, .kernel kind marker _ _⟩
  case forLoop range =>
    obtain ⟨v, rfl⟩ := hvars
    subst hoperands hresult hmarker
    exact ⟨_, .forLoop v range⟩
  case parallelLoop ranges =>
    subst hoperands hresult hmarker
    exact ⟨_, .parallelLoop vars ranges⟩
  case call callee =>
    subst hresult hmarker hvars
    exact ⟨_, .call callee operands⟩
  case ret =>
    subst hoperands hresult hmarker hvars
    exact ⟨_, .ret⟩

theorem opensBlock (h : Line kind operands result marker vars s) : s.opensBlock = kind.isLoop := by
  cases h <;> rfl

theorem identified (h : Line kind operands result marker vars s)
    (hcallee : ∀ callee, kind = .call callee → isIdentifier callee = true) : s.Identified := by
  cases h with
  | call callee => exact hcallee callee rfl
  | _ => trivial

end Line

end KernelLowering
