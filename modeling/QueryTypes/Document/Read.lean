import QueryTypes.Document.Rule
import QueryTypes.Error

namespace QueryTypes

def Document.read (path : Option String) (text : String) : Except Error Document :=
  (Document.parse text).mapError fun position => .parse ⟨path, .query, position⟩

end QueryTypes
