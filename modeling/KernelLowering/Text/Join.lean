namespace KernelLowering.Text

def join (separator : String) : List String → String
  | [] => ""
  | [item] => item
  | item :: rest => item ++ separator ++ join separator rest

def commas (items : List String) : String := join ", " items

def int (value : Int) : String := toString value

def ints (values : List Int) : String := commas (values.map int)

end KernelLowering.Text
