import EmailPlatform.Cache.Concurrency
import EmailPlatform.Cache.Namespaces
import EmailPlatform.Http.CircuitBreakerDispose
import EmailPlatform.Http.ClientLaws
import EmailPlatform.Http.RetryRuns
import EmailPlatform.Http.RequestExecutorLaws
import EmailPlatform.Http.Headers
import EmailPlatform.Http.Backoff
import EmailPlatform.Errors.Filters
import EmailPlatform.Health.Readiness
import EmailPlatform.Persistence.Credentials
import EmailPlatform.Storage.WriteOnce
import EmailPlatform.Storage.SizeCounter
import EmailPlatform.Storage.Filename
import EmailPlatform.Grpc.MonorepoRoot
import EmailPlatform.Grpc.Client
import EmailPlatform.Grpc.Deadline
import EmailPlatform.Grpc.Timeout
import EmailPlatform.Resilience.RetryConnect
import EmailPlatform.Logging.CorrelationId
import EmailPlatform.Storage.UploadSettles
import EmailPlatform.Cache.Codec
import EmailPlatform.Cache.Linearizable
import EmailPlatform.Http.CircuitBreakerRest
import EmailPlatform.Http.ClientRest
import EmailPlatform.Http.RequestAccounts
import EmailPlatform.Storage.StreamedBucket
import EmailPlatform.Contracts.Parser
import EmailPlatform.Core.Observation
import EmailPlatform.Http.Secrets
import EmailPlatform.Http.TelegramNotification
import EmailPlatform.Storage.PublicLinks
import EmailPlatform.Cache.SharedCache
import EmailPlatform.Cache.Freshness
