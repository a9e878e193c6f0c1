/-! Why a JSON text could not be read. -/

namespace ResultCache.Json

inductive Fault where
  /-- The text ended before the value did. -/
  | truncated
  /-- The text is not JSON, or something follows the value. -/
  | malformed
  /-- The text is JSON so far, but not of the form that was asked for. -/
  | mismatch (reason : String)
  deriving DecidableEq

end ResultCache.Json
