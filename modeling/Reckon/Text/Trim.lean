import Reckon.Text.Blank

namespace Reckon.Text

def trim (s : String) : String :=
  String.ofList (((s.toList.dropWhile isBlank).reverse.dropWhile isBlank).reverse)

end Reckon.Text
