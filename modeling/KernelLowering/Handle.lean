namespace KernelLowering

structure OpId where
  index : Nat
  deriving DecidableEq, Repr

structure ValueId where
  index : Nat
  deriving DecidableEq, Repr

def OpId.text (op : OpId) : String := s!"OpId({op.index})"

def ValueId.text (v : ValueId) : String := s!"ValueId({v.index})"

end KernelLowering
