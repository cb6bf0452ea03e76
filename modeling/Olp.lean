import Olp.Cost.Check
import Olp.Cost.ReadBack
import Olp.Limits.Limbs
import Olp.Aws.Headers
import Olp.Durable.Projection
import Olp.Sse.Passthrough
import Olp.Budget.Windows
import Olp.Admission.Overtaking
import Olp.Oif.Strict
import Olp.Oif.Overlays
import Olp.CodeTokens.Accounting
import Olp.Pricing.Charges
import Olp.Pricing.Parity
import Olp.Routing.Fallbacks
import Olp.Estimate.Patterns
import Olp.Estimate.Prompt
import Olp.Pricing.Dimensions
import Olp.Access.Templates
import Olp.Gateway.Health
