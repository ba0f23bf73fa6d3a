import Mathlib.Init

/-!
# Languages (`nlp/src/language/mod.rs`)

The language a text is tokenized in.  The tokenizers themselves are parameters of the search backend.
-/

namespace MailServer.Nlp

inductive Language where
  | esperanto | english | russian | mandarin | spanish | portuguese | italian | bengali | french
  | german | ukrainian | georgian | arabic | hindi | japanese | hebrew | yiddish | polish | amharic
  | javanese | korean | bokmal | danish | swedish | finnish | turkish | dutch | hungarian | czech
  | greek | bulgarian | belarusian | marathi | kannada | romanian | slovene | croatian | serbian
  | macedonian | lithuanian | latvian | estonian | tamil | vietnamese | urdu | thai | gujarati
  | uzbek | punjabi | azerbaijani | indonesian | telugu | persian | malayalam | oriya | burmese
  | nepali | sinhalese | khmer | turkmen | akan | zulu | shona | afrikaans | latin | slovak | catalan
  | tagalog | armenian | unknown | none
  deriving DecidableEq, Repr

end MailServer.Nlp
