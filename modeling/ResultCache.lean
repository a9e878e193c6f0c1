import ResultCache.Config.Build
import ResultCache.Config.FromJson
import ResultCache.Config.FromYaml
import ResultCache.Binary64.Single
import ResultCache.Fingerprint.Text
import ResultCache.Part.OfJson
import ResultCache.QueueSession
import ResultCache.Statement
import ResultCache.Proofs.Recency.Links
import ResultCache.Proofs.Recency.Order
import ResultCache.Proofs.Recency.History
import ResultCache.Proofs.Recency.Bounds
import ResultCache.Proofs.Recency.Representation
import ResultCache.Proofs.Request
import ResultCache.Proofs.Stack.RecencyLayer
import ResultCache.Proofs.Fingerprint.Equality
import ResultCache.Proofs.Stack.Inner
import ResultCache.Proofs.Tier.Contents
import ResultCache.Proofs.Cache.Faithful
import ResultCache.Proofs.Chain.Faithful
import ResultCache.Proofs.Session.Freshness
import ResultCache.Proofs.Cache.Simulation
import ResultCache.Proofs.Tier.Draining
import ResultCache.Proofs.Tier.Backing
import ResultCache.Proofs.Chain.Draining
import ResultCache.Proofs.Session.Draining
import ResultCache.Proofs.Fingerprint.Statement
import ResultCache.Proofs.Chain.EachRecency
import ResultCache.Proofs.Session.Step
import ResultCache.Proofs.Tier.Collection
import ResultCache.Proofs.Chain.WeakTier
import ResultCache.Proofs.Session.Collection
import ResultCache.Proofs.Session.Objects
import ResultCache.Proofs.Tier.Registration
import ResultCache.Proofs.Session.Registration
import ResultCache.Proofs.Recency.Retention
import ResultCache.Proofs.Tier.Retention
import ResultCache.Proofs.Chain.Retention
import ResultCache.Proofs.Session.Retention
import ResultCache.Proofs.Stack.Coverage
import ResultCache.Proofs.Chain.Coverage
import ResultCache.Proofs.Session.Coverage
import ResultCache.Proofs.Session.Ownership
import ResultCache.Proofs.Recency.Nesting
import ResultCache.Proofs.Stack.Nesting
import ResultCache.Proofs.Stack.Events
import ResultCache.Proofs.Stack.Notices
import ResultCache.Proofs.Tier.Notices
import ResultCache.Proofs.Session.Notices
import ResultCache.Proofs.Tier.Pins
import ResultCache.Proofs.Session.Pins
import ResultCache.Proofs.Cache.Tracing
import ResultCache.Proofs.Tier.Tracing
import ResultCache.Proofs.Chain.Tracing
import ResultCache.Proofs.Chain.Listing
import ResultCache.Proofs.Session.Clearing
import ResultCache.Proofs.Config.Validity
import ResultCache.Proofs.Config.Build
import ResultCache.Proofs.Fingerprint.Totals
import ResultCache.Proofs.Json.Reading
import ResultCache.Proofs.Json.Numeral
import ResultCache.Proofs.Config.RoundTrip
import ResultCache.Proofs.Binary64.Interval
import ResultCache.Proofs.Binary64.Text
import ResultCache.Proofs.Json.Legible
import ResultCache.Proofs.Part.Canonical
import ResultCache.Proofs.Part.Nested
import ResultCache.Proofs.Fingerprint.Canonical
import ResultCache.Proofs.Fingerprint.Order
import ResultCache.Proofs.Fingerprint.Respelling
import ResultCache.Proofs.Session.Lifetime
import ResultCache.Proofs.Session.Release
import ResultCache.Proofs.Tier.Removal
import ResultCache.Proofs.Session.Removal
import ResultCache.Proofs.Stack.Asked
import ResultCache.Proofs.Stack.Resizing
import ResultCache.Proofs.Recency.Lookups
import ResultCache.Proofs.Session.Lookups
import ResultCache.Proofs.Stack.Unlogged
import ResultCache.Proofs.Stack.Visits
import ResultCache.Proofs.Tier.Asked
import ResultCache.Proofs.Chain.Unlogged
import ResultCache.Proofs.Chain.Visits
import ResultCache.Proofs.Session.Tracing
import ResultCache.Proofs.Session.Logging
