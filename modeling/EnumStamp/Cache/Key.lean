set_option autoImplicit false

namespace EnumStamp.Cache

/-- What stands between the two names of a key. -/
def keySeparator : String := "_"

def key (enumName memberName : String) : String :=
  enumName ++ keySeparator ++ memberName

end EnumStamp.Cache
