import DiiaApp.ActionExecutor
import DiiaApp.ActionVisitor
import DiiaApp.ApplicationHooks
import DiiaApp.Audience
import DiiaApp.ClientMiddleware
import DiiaApp.Dependencies
import DiiaApp.Descent
import DiiaApp.Descriptors
import DiiaApp.Discovery
import DiiaApp.DynamicCalls
import DiiaApp.DynamicClient
import DiiaApp.ErrorRelay
import DiiaApp.Errors
import DiiaApp.ExecuteAction
import DiiaApp.Generator
import DiiaApp.GrpcClient
import DiiaApp.Interleave
import DiiaApp.Js.Date
import DiiaApp.Js.Double
import DiiaApp.Js.Index
import DiiaApp.Js.Integer
import DiiaApp.Js.Json
import DiiaApp.Js.Map
import DiiaApp.Js.Text
import DiiaApp.Js.Value
import DiiaApp.JsonSchema
import DiiaApp.JsonSchemaGenerator
import DiiaApp.Leases
import DiiaApp.Metadata
import DiiaApp.MoleculerActions
import DiiaApp.NameTree
import DiiaApp.Numerals
import DiiaApp.OneofMessages
import DiiaApp.Pool
import DiiaApp.Proofs.ActionVersions
import DiiaApp.Proofs.ActionVisitor
import DiiaApp.Proofs.Admission
import DiiaApp.Proofs.ClientMetadata
import DiiaApp.Proofs.ClientMiddleware
import DiiaApp.Proofs.ClosedStreams
import DiiaApp.Proofs.CommentOwners
import DiiaApp.Proofs.DefinedReferences
import DiiaApp.Proofs.Delivery
import DiiaApp.Proofs.Dependencies
import DiiaApp.Proofs.Discovery
import DiiaApp.Proofs.DistinctNames
import DiiaApp.Proofs.DynamicCalls
import DiiaApp.Proofs.DynamicSchema
import DiiaApp.Proofs.EnumNames
import DiiaApp.Proofs.ErrorRelay
import DiiaApp.Proofs.ExactReferences
import DiiaApp.Proofs.ExecuteAction
import DiiaApp.Proofs.HookOrder
import DiiaApp.Proofs.IntegerStrings
import DiiaApp.Proofs.Intersections
import DiiaApp.Proofs.Json
import DiiaApp.Proofs.Leaves
import DiiaApp.Proofs.Literal
import DiiaApp.Proofs.LiteralUnions
import DiiaApp.Proofs.Locking
import DiiaApp.Proofs.MergeOrder
import DiiaApp.Proofs.MoleculerActions
import DiiaApp.Proofs.ProtoImports
import DiiaApp.Proofs.ProtoTree
import DiiaApp.Proofs.ReflectionCall
import DiiaApp.Proofs.ReflectionFix
import DiiaApp.Proofs.ReflectionFrame
import DiiaApp.Proofs.ReflectionIndex
import DiiaApp.Proofs.RefusedStreams
import DiiaApp.Proofs.RepositoryFilter
import DiiaApp.Proofs.RequiredFields
import DiiaApp.Proofs.RootBuild
import DiiaApp.Proofs.RpcCode
import DiiaApp.Proofs.SchemaCache
import DiiaApp.Proofs.SchemaDefinitions
import DiiaApp.Proofs.SchemaJson
import DiiaApp.Proofs.SchemaMeaning
import DiiaApp.Proofs.SchemaMerge
import DiiaApp.Proofs.SchemaPlaces
import DiiaApp.Proofs.SchemaSearch
import DiiaApp.Proofs.SchemaTypes
import DiiaApp.Proofs.SearchLayout
import DiiaApp.Proofs.SearchOrder
import DiiaApp.Proofs.SelfReference
import DiiaApp.Proofs.Sendable
import DiiaApp.Proofs.ServiceMethods
import DiiaApp.Proofs.Shutdown
import DiiaApp.Proofs.SourceComments
import DiiaApp.Proofs.SourceFields
import DiiaApp.Proofs.StartHooks
import DiiaApp.Proofs.StopHooks
import DiiaApp.Proofs.StreamSettles
import DiiaApp.Proofs.Streams
import DiiaApp.Proofs.StrippedParams
import DiiaApp.Proofs.Subscriptions
import DiiaApp.Proofs.SyntheticOneofs
import DiiaApp.Proofs.Text
import DiiaApp.Proofs.TimedLocks
import DiiaApp.Proofs.TraceChain
import DiiaApp.Proofs.TransientFailure
import DiiaApp.Proofs.TwoDecoders
import DiiaApp.Proofs.TypeCycles
import DiiaApp.Proofs.TypeDescent
import DiiaApp.Proofs.TypeLayout
import DiiaApp.Proofs.TypeMeaning
import DiiaApp.Proofs.TypeOutline
import DiiaApp.Proofs.TypePlans
import DiiaApp.Proofs.UnaryAnswer
import DiiaApp.Proofs.Weight
import DiiaApp.Proofs.WholeSchemas
import DiiaApp.Proofs.WholeText
import DiiaApp.Proofs.Wrappers
import DiiaApp.Proofs.WriteAfterEnd
import DiiaApp.ProtoComments
import DiiaApp.ProtoImports
import DiiaApp.ProtoRoot
import DiiaApp.ProtoSource
import DiiaApp.ProtoTree
import DiiaApp.ReflectionBuffers
import DiiaApp.ReflectionCall
import DiiaApp.ReflectionFix
import DiiaApp.RepositoryFilter
import DiiaApp.RequestBody
import DiiaApp.Results
import DiiaApp.RpcError
import DiiaApp.SchemaMeaning
import DiiaApp.SchemaService
import DiiaApp.ServiceMethods
import DiiaApp.Shapes
import DiiaApp.Shutdown
import DiiaApp.Stages
import DiiaApp.StandIn
import DiiaApp.Steps
import DiiaApp.StreamAction
import DiiaApp.StreamService
import DiiaApp.TimedLocks
import DiiaApp.TraceChain
import DiiaApp.Traversal
import DiiaApp.TypeLayout
import DiiaApp.TypeMeaning
import DiiaApp.TypeParser
import DiiaApp.TypeScript
import DiiaApp.UnaryCall
import DiiaApp.Validity
import DiiaApp.Wrappers
