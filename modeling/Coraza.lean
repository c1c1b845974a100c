import Coraza.Waf.Phases
import Coraza.Waf.ChainSemantics
import Coraza.Waf.DetectionOnly
import Coraza.BodyProcessors.Json
import Coraza.Http.Transparency
import Coraza.Waf.Interruptions
import Coraza.Memoize.Ownership
import Coraza.Waf.NamesViews
import Coraza.Waf.RegexKeys
import Coraza.Seclang.Identity
import Coraza.Seclang.OpenChains
import Coraza.Seclang.ChainCapture
import Coraza.Waf.SkipAfter
import Coraza.Waf.Allow
import Coraza.Waf.Setvar
import Coraza.Waf.RuntimeLimits
import Coraza.Http.Request
import Coraza.Http.Handler
import Coraza.Seclang.Locations
import Coraza.Transformations.Base64
import Coraza.Transformations.UrlDecoders
import Coraza.Operators.MinLength
import Coraza.Operators.ExactMatch
import Coraza.Operators.BytePresence
import Coraza.Waf.MultiMatch
import Coraza.Transformations.CRoundTrip
import Coraza.Transformations.CommentForms
import Coraza.Transformations.CssRoundTrip
import Coraza.Transformations.NormalForms
